import PingoraProxy.Foundation.RustString

/-!
# The routing API

The messages of the routing service, as the protobuf schema declares them.  An
enumeration field carries any 32-bit number; the generated conversion accepts
the declared ones.

Main results:

- Theorem {lit}`PathMatchType.tryFrom_eq_some_iff`: the conversion accepts
  exactly the declared path match types.
-/

namespace PingoraProxy

open Foundation

/-! ## Backends -/

/-- Protocol of the connection to a backend. -/
inductive BackendProtocol where
  | unspecified
  | http
  | https
  | h2c
  | h2
deriving DecidableEq, Repr

/-- The protocol a field value declares. -/
def BackendProtocol.tryFrom (value : Int32) : Option BackendProtocol :=
  if value = 0 then some .unspecified
  else if value = 1 then some .http
  else if value = 2 then some .https
  else if value = 3 then some .h2c
  else if value = 4 then some .h2
  else none

/-- A backend service endpoint. -/
structure Backend where
  address : Str
  weight : UInt32
  protocol : Int32
deriving DecidableEq

/-! ## HTTP routes -/

/-- How a path value is matched. -/
inductive PathMatchType where
  | unspecified
  | exact
  | pathPrefix
  | regex
deriving DecidableEq, Repr

namespace PathMatchType

/-- The path match type a field value declares. -/
def tryFrom (value : Int32) : Option PathMatchType :=
  if value = 0 then some .unspecified
  else if value = 1 then some .exact
  else if value = 2 then some .pathPrefix
  else if value = 3 then some .regex
  else none

/-- The field value that declares a path match type. -/
def toInt32 : PathMatchType → Int32
  | unspecified => 0
  | exact => 1
  | pathPrefix => 2
  | regex => 3

/-- The conversion accepts exactly the declared path match types. -/
theorem tryFrom_eq_some_iff {value : Int32} {matchType : PathMatchType} :
    tryFrom value = some matchType ↔ value = matchType.toInt32 := by
  constructor
  · unfold tryFrom
    intro h
    split_ifs at h with h0 h1 h2 h3 <;> cases h <;> assumption
  · rintro rfl
    cases matchType <;> rfl

end PathMatchType

/-- A condition on the request path. -/
structure PathMatch where
  matchType : Int32
  value : Str
deriving DecidableEq

/-- A condition on a request header. -/
structure HeaderMatch where
  name : Str
  value : Str
  matchType : Int32
deriving DecidableEq

/-- A condition on a query parameter. -/
structure QueryParamMatch where
  name : Str
  value : Str
  matchType : Int32
deriving DecidableEq

/-- Conditions on an HTTP request. -/
structure HttpRouteMatch where
  path : Option PathMatch
  headers : List HeaderMatch
  queryParams : List QueryParamMatch
  method : Str
deriving DecidableEq

/-- Retry behaviour for failed requests. -/
structure RetryConfig where
  attempts : UInt32
  backoffMs : UInt64
  retryOnStatusCodes : List UInt32
deriving DecidableEq

/-- A routing rule: alternative matches and the backends that serve them. -/
structure HttpRouteRule where
  routeMatches : List HttpRouteMatch
  backends : List Backend
  timeoutMs : UInt64
  retry : Option RetryConfig
deriving DecidableEq

/-- An HTTP route: an identifier, host names and routing rules. -/
structure HttpRoute where
  id : Str
  hostnames : List Str
  rules : List HttpRouteRule
deriving DecidableEq

/-! ## gRPC routes -/

/-- A condition on the service and method of a gRPC request. -/
structure GrpcMethodMatch where
  matchType : Int32
  service : Str
  method : Str
deriving DecidableEq

/-- Conditions on a gRPC request. -/
structure GrpcRouteMatch where
  method : Option GrpcMethodMatch
  headers : List HeaderMatch
deriving DecidableEq

/-- A gRPC routing rule. -/
structure GrpcRouteRule where
  routeMatches : List GrpcRouteMatch
  backends : List Backend
deriving DecidableEq

/-- A gRPC route: an identifier, host names and routing rules. -/
structure GrpcRoute where
  id : Str
  hostnames : List Str
  rules : List GrpcRouteRule
deriving DecidableEq

/-! ## Requests and responses -/

/-- A complete routing configuration with its version. -/
structure UpdateRoutesRequest where
  httpRoutes : List HttpRoute
  grpcRoutes : List GrpcRoute
  version : UInt64
deriving DecidableEq

/-- The confirmation of a route update. -/
structure UpdateRoutesResponse where
  success : Bool
  error : Str
  appliedVersion : UInt64
  httpRouteCount : UInt32
  grpcRouteCount : UInt32
deriving DecidableEq

/-- The health status of the proxy. -/
structure HealthResponse where
  healthy : Bool
  status : Str
  activeConnections : UInt64
  configVersion : UInt64
deriving DecidableEq

/-- The current route configuration. -/
structure GetRoutesResponse where
  httpRoutes : List HttpRoute
  grpcRoutes : List GrpcRoute
  version : UInt64
deriving DecidableEq

/-! ## Building messages -/

/-- A cleartext HTTP backend. -/
def makeBackend (address : String) (weight : UInt32) : Backend where
  address := address.toList
  weight := weight
  protocol := 1

/-- A condition on the path. -/
def makePathMatch (matchType : PathMatchType) (value : String) : PathMatch where
  matchType := matchType.toInt32
  value := value.toList

/-- A match with no condition but one on the path. -/
def makeRouteMatch (path : Option PathMatch) : HttpRouteMatch where
  path := path
  headers := []
  queryParams := []
  method := []

/-- A rule without timeout and retries. -/
def makeRule (routeMatches : List HttpRouteMatch) (backends : List Backend) : HttpRouteRule where
  routeMatches := routeMatches
  backends := backends
  timeoutMs := 0
  retry := none

/-- A route with the given rules. -/
def makeRoute (id : String) (hostnames : List String) (rules : List HttpRouteRule) :
    HttpRoute where
  id := id.toList
  hostnames := hostnames.map String.toList
  rules := rules

/-- A rule with one backend. -/
def oneBackendRule (address : String) : HttpRouteRule :=
  makeRule [] [makeBackend address 1]

/-- A route with this rule alone. -/
def oneBackendRoute (address : String) : HttpRoute :=
  makeRoute "r" [] [oneBackendRule address]

/-- A configuration with one HTTP route and the given version. -/
def versioned (version : UInt64) (id : String) : UpdateRoutesRequest where
  httpRoutes := [makeRoute id [] []]
  grpcRoutes := []
  version := version

end PingoraProxy
