import Sylar.HttpDump
import Sylar.Uri

/-! # Requests of a connection and of a pool

`HttpConnection::DoRequest` gives a request the path, the query and the fragment of a uri, and
`dump` puts them together; `HttpConnectionPool::doRequest` puts them together first and gives the
request the whole as its path.  Both add the headers in the same way, and a `Host` where there is
none.

**`pooled_dump_eq_direct`**: what is sent is the same, if the host of the pool is that of the
uri. -/
namespace Sylar.Http
variable {M : Type} [StdMap M]

/-- The loop of both functions over the headers, which also finds out whether there is a host. -/
def addHeaders : List (Bytes × Bytes) → HttpRequest M → Bool → HttpRequest M × Bool
  | [], req, hasHost => (req, hasHost)
  | i :: headers, req, hasHost =>
    if strcasecmpEq i.1 (bytes "connection") then
      let req := if strcasecmpEq i.2 (bytes "keep-alive") then { req with close := false } else req
      addHeaders headers req hasHost
    else
      let hasHost :=
        if !hasHost && strcasecmpEq i.1 (bytes "host") then !i.2.isEmpty else hasHost
      addHeaders headers (req.setHeader i.1 i.2) hasHost

/-- The request that `HttpConnection::DoRequest( method, uri, .. )` makes. -/
def directRequest (method : Method) (uri : Uri) (headers : List (Bytes × Bytes)) (body : Bytes) :
    HttpRequest M :=
  let req : HttpRequest M := { headers := HeaderMap.empty }
  let req := { req with path := uri.getPath }
  let req := { req with query := uri.query_ }
  let req := { req with fragment := uri.fragment_ }
  let req := { req with method := method }
  let (req, hasHost) := addHeaders headers req false
  let req := if !hasHost then req.setHeader (bytes "Host") uri.host_ else req
  { req with body := body }

/-- The members of `HttpConnectionPool` that a request is made of. -/
structure PoolHost where
  host_ : Bytes
  vhost_ : Bytes

/-- The request that `HttpConnectionPool::doRequest( method, url, .. )` makes. -/
def PoolHost.requestOfUrl (pool : PoolHost) (method : Method) (url : Bytes)
    (headers : List (Bytes × Bytes)) (body : Bytes) : HttpRequest M :=
  let req : HttpRequest M := { headers := HeaderMap.empty }
  let req := { req with path := url }
  let req := { req with method := method }
  let (req, hasHost) := addHeaders headers req false
  let req :=
    if !hasHost then
      if pool.vhost_ = [] then req.setHeader (bytes "Host") pool.host_
      else req.setHeader (bytes "Host") pool.vhost_
    else req
  { req with body := body }

/-- The request that `HttpConnectionPool::doRequest( method, uri, .. )` makes. -/
def PoolHost.request (pool : PoolHost) (method : Method) (uri : Uri)
    (headers : List (Bytes × Bytes)) (body : Bytes) : HttpRequest M :=
  let ss := uri.getPath ++ (if uri.query_ = [] then [] else bytes "?") ++ uri.query_ ++
    (if uri.fragment_ = [] then [] else bytes "#") ++ uri.fragment_
  pool.requestOfUrl method ss headers body

/-! ## What is the same of two requests -/

/-- A path, a query and a fragment, as they are put together. -/
def joined (path query fragment : Bytes) : Bytes :=
  path ++ (if query = [] then [] else bytes "?") ++ query ++
    (if fragment = [] then [] else bytes "#") ++ fragment

/-- What is put together stays as it is when it is taken for a path. -/
theorem joined_path (path : Bytes) : joined path [] [] = path := by
  simp [joined]

/-- The requests have the same target once their parts are put together, and otherwise the same
members. -/
structure SameWire (r s : HttpRequest M) : Prop where
  target : joined r.path r.query r.fragment = joined s.path s.query s.fragment
  method : r.method = s.method
  version : r.version = s.version
  close : r.close = s.close
  body : r.body = s.body
  headers : r.headers = s.headers

omit [StdMap M] in
theorem requestLine_eq (r : HttpRequest M) :
    r.requestLine = httpMethodToString r.method ++ bytes " " ++
      joined r.path r.query r.fragment ++ bytes " " ++ versionText r.version := by
  simp [HttpRequest.requestLine, joined]

namespace SameWire
variable {r s : HttpRequest M}

theorem dump_eq (h : SameWire r s) : r.dump = s.dump := by
  have hline : r.requestLine = s.requestLine := by
    rw [requestLine_eq, requestLine_eq, h.method, h.version, h.target]
  rw [HttpRequest.dump, HttpRequest.dump, hline, h.close, h.headers, h.body]

theorem setHeader (h : SameWire r s) (key val : Bytes) :
    SameWire (r.setHeader key val) (s.setHeader key val) :=
  ⟨h.target, h.method, h.version, h.close, h.body,
    congrArg (fun m => HeaderMap.assign m key val) h.headers⟩

omit [StdMap M] in
theorem keepAlive (h : SameWire r s) :
    SameWire { r with close := false } { s with close := false } :=
  ⟨h.target, h.method, h.version, rfl, h.body, h.headers⟩

/-- The loop does not see the difference, and finds the same out. -/
theorem addHeaders (h : SameWire r s) (headers : List (Bytes × Bytes)) (hasHost : Bool) :
    SameWire (addHeaders headers r hasHost).1 (addHeaders headers s hasHost).1 ∧
      (Http.addHeaders headers r hasHost).2 = (Http.addHeaders headers s hasHost).2 := by
  induction headers generalizing r s hasHost with
  | nil => exact ⟨h, rfl⟩
  | cons i headers ih =>
    rw [Http.addHeaders, Http.addHeaders]
    split
    case isTrue =>
      split
      · exact ih h.keepAlive hasHost
      · exact ih h hasHost
    case isFalse => exact ih (h.setHeader i.1 i.2) _

end SameWire

/-- A request behind the loop: it gets a host where none was found, and its body. -/
def finish (added : HttpRequest M × Bool) (host body : Bytes) : HttpRequest M :=
  { (if !added.2 then added.1.setHeader (bytes "Host") host else added.1) with body := body }

theorem requestOfUrl_eq (pool : PoolHost) (method : Method) (url : Bytes)
    (headers : List (Bytes × Bytes)) (body : Bytes) :
    (pool.requestOfUrl method url headers body : HttpRequest M) =
      finish (addHeaders headers { path := url, method, headers := HeaderMap.empty } false)
        (if pool.vhost_ = [] then pool.host_ else pool.vhost_) body := by
  by_cases hvhost : pool.vhost_ = []
  · simp only [PoolHost.requestOfUrl, finish, if_pos hvhost]
  · simp only [PoolHost.requestOfUrl, finish, if_neg hvhost]

theorem SameWire.finish {added added' : HttpRequest M × Bool} (h : SameWire added.1 added'.1)
    (hfound : added.2 = added'.2) (host body : Bytes) :
    SameWire (finish added host body) (finish added' host body) := by
  rw [Http.finish, Http.finish, hfound]
  split
  · exact ⟨h.target, h.method, h.version, h.close, rfl, (h.setHeader (bytes "Host") host).headers⟩
  · exact ⟨h.target, h.method, h.version, h.close, rfl, h.headers⟩

/-- **A pool whose host is that of the uri sends what the connection sends**, for every method,
uri, headers and body. -/
theorem pooled_dump_eq_direct (pool : PoolHost) (method : Method) (uri : Uri)
    (headers : List (Bytes × Bytes)) (body : Bytes)
    (hhost : (if pool.vhost_ = [] then pool.host_ else pool.vhost_) = uri.host_) :
    (pool.request method uri headers body : HttpRequest M).dump =
      (directRequest method uri headers body : HttpRequest M).dump := by
  have hstart : SameWire
      { path := joined uri.getPath uri.query_ uri.fragment_, method, headers := HeaderMap.empty }
      { path := uri.getPath, query := uri.query_, fragment := uri.fragment_, method,
        headers := (HeaderMap.empty : M) } :=
    ⟨joined_path _, rfl, rfl, rfl, rfl, rfl⟩
  -- the two requests begin with the same target, and every step keeps it so
  obtain ⟨hadded, hfound⟩ := hstart.addHeaders headers false
  rw [PoolHost.request, requestOfUrl_eq, hhost]
  exact (hadded.finish hfound uri.host_ body).dump_eq

/-- A pool without a `vhost_`, and a request with a query, a host of its own, a header for the
connection, and a body. -/
theorem pooled_dump_eq_direct_query :
    (PoolHost.request (M := EntryList) ⟨bytes "h", []⟩ .post
      { host_ := bytes "h", query_ := bytes "q" }
      [(bytes "Connection", bytes "Keep-Alive"), (bytes "host", bytes "v"),
        (bytes "age", bytes "1")] (bytes "b")).dump =
    (directRequest .post { host_ := bytes "h", query_ := bytes "q" }
      [(bytes "Connection", bytes "Keep-Alive"), (bytes "host", bytes "v"),
        (bytes "age", bytes "1")] (bytes "b") : HttpRequest EntryList).dump :=
  pooled_dump_eq_direct _ _ _ _ _ rfl

end Sylar.Http
