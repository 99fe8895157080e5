import Mathlib.Data.BitVec
import Mathlib.Logic.Function.Basic

/-! # The URL parser of `http_parser.c`

`enum state` with the transition function `parse_url_char` that `http_parser_execute` uses
to validate a URL, and `http_parser_parse_url`, which runs the same function over a whole
URL and records where its components stand.

The macros are taken as they expand with `HTTP_PARSER_STRICT` set to 1, its default. -/
namespace Sylar.Http

/-- Bytes of a buffer. -/
abbrev Bytes := List UInt8

/-- A character literal. -/
def chr (c : Char) : UInt8 := UInt8.ofNat c.toNat

/-- A string literal. -/
def bytes (s : String) : Bytes := s.toList.map chr

/-- `CR` -/
def CR : UInt8 := 13

/-- `LF` -/
def LF : UInt8 := 10

/-! ## Character classes -/

/-- `LOWER(c)` -/
def lower (c : UInt8) : UInt8 := c ||| 0x20

/-- `IS_ALPHA(c)` -/
def isAlpha (c : UInt8) : Bool := chr 'a' ≤ lower c && lower c ≤ chr 'z'

/-- `IS_NUM(c)` -/
def isNum (c : UInt8) : Bool := chr '0' ≤ c && c ≤ chr '9'

/-- `IS_ALPHANUM(c)` -/
def isAlphanum (c : UInt8) : Bool := isAlpha c || isNum c

/-- `IS_HEX(c)` -/
def isHex (c : UInt8) : Bool := isNum c || (chr 'a' ≤ lower c && lower c ≤ chr 'f')

/-- `IS_MARK(c)` -/
def isMark (c : UInt8) : Bool := (bytes "-_.!~*'()").contains c

/-- `IS_USERINFO_CHAR(c)` -/
def isUserinfoChar (c : UInt8) : Bool :=
  isAlphanum c || isMark c || (bytes "%;:&=+$,").contains c

/-- `IS_URL_CHAR(c)`: the bits of `normal_url_char`. -/
def isUrlChar (c : UInt8) : Bool :=
  33 ≤ c && c ≤ 126 && c != chr '#' && c != chr '?'

/-- `IS_HOST_CHAR(c)` -/
def isHostChar (c : UInt8) : Bool := isAlphanum c || c == chr '.' || c == chr '-'

/-- `c - '0'` -/
def digit (c : UInt8) : Nat := c.toNat - 48

/-! ## States -/

/-- `enum state` -/
inductive State where
  | dead
  | startReqOrRes
  | resOrRespH
  | startRes
  | resH
  | resHT
  | resHTT
  | resHTTP
  | resHttpMajor
  | resHttpDot
  | resHttpMinor
  | resHttpEnd
  | resFirstStatusCode
  | resStatusCode
  | resStatusStart
  | resStatus
  | resLineAlmostDone
  | startReq
  | reqMethod
  | reqSpacesBeforeUrl
  | reqSchema
  | reqSchemaSlash
  | reqSchemaSlashSlash
  | reqServerStart
  | reqServer
  | reqServerWithAt
  | reqPath
  | reqQueryStringStart
  | reqQueryString
  | reqFragmentStart
  | reqFragment
  | reqHttpStart
  | reqHttpH
  | reqHttpHT
  | reqHttpHTT
  | reqHttpHTTP
  | reqHttpI
  | reqHttpIC
  | reqHttpMajor
  | reqHttpDot
  | reqHttpMinor
  | reqHttpEnd
  | reqLineAlmostDone
  | headerFieldStart
  | headerField
  | headerValueDiscardWs
  | headerValueDiscardWsAlmostDone
  | headerValueDiscardLws
  | headerValueStart
  | headerValue
  | headerValueLws
  | headerAlmostDone
  | chunkSizeStart
  | chunkSize
  | chunkParameters
  | chunkSizeAlmostDone
  | headersAlmostDone
  | headersDone
  | chunkData
  | chunkDataAlmostDone
  | chunkDataDone
  | bodyIdentity
  | bodyIdentityEof
  | messageDone
  deriving DecidableEq, Repr

/-- `parse_url_char`: the state after a character of a URL, `s_dead` where it cannot
stand. -/
def parseUrlChar (s : State) (ch : UInt8) : State :=
  if ch = chr ' ' ∨ ch = CR ∨ ch = LF then .dead
  else if ch = chr '\t' ∨ ch = 12 then .dead
  else
    -- the cases that `s_req_server_with_at` falls through to
    let server : State :=
      if ch = chr '/' then .reqPath
      else if ch = chr '?' then .reqQueryStringStart
      else if ch = chr '@' then .reqServerWithAt
      else if isUserinfoChar ch ∨ ch = chr '[' ∨ ch = chr ']' then .reqServer
      else .dead
    let query : State :=
      if isUrlChar ch then .reqQueryString
      else if ch = chr '?' then .reqQueryString
      else if ch = chr '#' then .reqFragmentStart
      else .dead
    match s with
    | .reqSpacesBeforeUrl =>
      if ch = chr '/' ∨ ch = chr '*' then .reqPath
      else if isAlpha ch then .reqSchema
      else .dead
    | .reqSchema =>
      if isAlpha ch then s
      else if ch = chr ':' then .reqSchemaSlash
      else .dead
    | .reqSchemaSlash => if ch = chr '/' then .reqSchemaSlashSlash else .dead
    | .reqSchemaSlashSlash => if ch = chr '/' then .reqServerStart else .dead
    | .reqServerWithAt => if ch = chr '@' then .dead else server
    | .reqServerStart => server
    | .reqServer => server
    | .reqPath =>
      if isUrlChar ch then s
      else if ch = chr '?' then .reqQueryStringStart
      else if ch = chr '#' then .reqFragmentStart
      else .dead
    | .reqQueryStringStart => query
    | .reqQueryString => query
    | .reqFragmentStart =>
      if isUrlChar ch then .reqFragment
      else if ch = chr '?' then .reqFragment
      else if ch = chr '#' then s
      else .dead
    | .reqFragment =>
      if isUrlChar ch then s
      else if ch = chr '?' ∨ ch = chr '#' then s
      else .dead
    | _ => .dead

/-! ## Components of a URL -/

/-- `enum http_parser_url_fields` -/
inductive UrlField where
  | schema
  | host
  | port
  | path
  | query
  | fragment
  | userinfo
  deriving DecidableEq, Repr

/-- `struct http_parser_url`: which components were found, and where they stand. -/
structure Url where
  fieldSet : UrlField → Bool
  port : Nat
  off : UrlField → Nat
  len : UrlField → Nat

namespace Url

/-- `http_parser_url_init` -/
def init : Url := { fieldSet := fun _ => false, port := 0, off := fun _ => 0, len := fun _ => 0 }

/-- `u->field_data[uf].len++`, a `uint16_t` -/
def grow (u : Url) (uf : UrlField) : Url :=
  { u with len := Function.update u.len uf ((u.len uf + 1) % 2 ^ 16) }

/-- The component begins at `p - buf`, with its first byte. -/
def start (u : Url) (uf : UrlField) (i : Nat) : Url :=
  { u with
    fieldSet := Function.update u.fieldSet uf true
    off := Function.update u.off uf (i % 2 ^ 16)
    len := Function.update u.len uf 1 }

/-- `std::string( buf + field_data[uf].off, field_data[uf].len )` -/
def component (u : Url) (uf : UrlField) (buf : Bytes) : Bytes :=
  (buf.drop (u.off uf)).take (u.len uf)

end Url

/-- The component that a state of the URL belongs to: `none` for a delimiter, which is
skipped. -/
def urlFieldOf : State → Option UrlField
  | .reqSchema => some .schema
  | .reqServerWithAt => some .host
  | .reqServer => some .host
  | .reqPath => some .path
  | .reqQueryString => some .query
  | .reqFragment => some .fragment
  | _ => none

/-- The loop of `http_parser_parse_url`, at `p = buf + i`: `none` for `return 1`. -/
def parseUrlLoop (s : State) (oldUf : Option UrlField) (foundAt : Bool) (u : Url) (i : Nat) :
    Bytes → Option (Url × Bool)
  | [] => some (u, foundAt)
  | ch :: rest =>
    let s := parseUrlChar s ch
    if s = .dead then none
    else
      let foundAt := foundAt || s == .reqServerWithAt
      match urlFieldOf s with
      | none => parseUrlLoop s oldUf foundAt u (i + 1) rest
      | some uf =>
        if some uf = oldUf then parseUrlLoop s oldUf foundAt (u.grow uf) (i + 1) rest
        else parseUrlLoop s (some uf) foundAt (u.start uf i) (i + 1) rest

/-- `enum http_host_state` -/
inductive HostState where
  | dead
  | userinfoStart
  | userinfo
  | hostStart
  | hostV6Start
  | host
  | hostV6
  | hostV6End
  | hostV6ZoneStart
  | hostV6Zone
  | hostPortStart
  | hostPort
  deriving DecidableEq, Repr

/-- `http_parse_host_char` -/
def parseHostChar (s : HostState) (ch : UInt8) : HostState :=
  let v6End : HostState := if ch = chr ':' then .hostPortStart else .dead
  let v6Start : HostState :=
    if isHex ch ∨ ch = chr ':' ∨ ch = chr '.' then .hostV6
    else if s = .hostV6 ∧ ch = chr '%' then .hostV6ZoneStart
    else .dead
  let zoneStart : HostState :=
    if isAlphanum ch ∨ (bytes "%.-_~").contains ch then .hostV6Zone else .dead
  match s with
  | .userinfo | .userinfoStart =>
    if ch = chr '@' then .hostStart
    else if isUserinfoChar ch then .userinfo
    else .dead
  | .hostStart =>
    if ch = chr '[' then .hostV6Start
    else if isHostChar ch then .host
    else .dead
  | .host => if isHostChar ch then .host else v6End
  | .hostV6End => v6End
  | .hostV6 => if ch = chr ']' then .hostV6End else v6Start
  | .hostV6Start => v6Start
  | .hostV6Zone => if ch = chr ']' then .hostV6End else zoneStart
  | .hostV6ZoneStart => zoneStart
  | .hostPort | .hostPortStart => if isNum ch then .hostPort else .dead
  | .dead => .dead

/-- What `http_parse_host` records of a character that led from state `s` to `newS`. -/
def recordHost (s newS : HostState) (u : Url) (i : Nat) : Url :=
  -- the host keeps the length it has and moves to where the run begins
  let move (u : Url) : Url :=
    if s = newS then u else { u with off := Function.update u.off .host (i % 2 ^ 16) }
  let run (uf : UrlField) : Url := if s = newS then u.grow uf else u.start uf i
  match newS with
  | .host => (move u).grow .host
  | .hostV6 => (move u).grow .host
  | .hostV6ZoneStart => u.grow .host
  | .hostV6Zone => u.grow .host
  | .hostPort => run .port
  | .userinfo => run .userinfo
  | _ => u

/-- The loop of `http_parse_host`. -/
def parseHostLoop (s : HostState) (u : Url) (i : Nat) : Bytes → Option (Url × HostState)
  | [] => some (u, s)
  | ch :: rest =>
    let newS := parseHostChar s ch
    if newS = .dead then none else parseHostLoop newS (recordHost s newS u i) (i + 1) rest

/-- `http_parse_host`: `none` for `return 1`. -/
def parseHost (buf : Bytes) (u : Url) (foundAt : Bool) : Option Url :=
  let off := u.off .host
  let host := u.component .host buf
  let u := { u with len := Function.update u.len .host 0 }
  match parseHostLoop (if foundAt then .userinfoStart else .hostStart) u off host with
  | none => none
  | some (u, s) =>
    if s ∈ [HostState.hostStart, .hostV6Start, .hostV6, .hostV6ZoneStart, .hostV6Zone,
        .hostPortStart, .userinfo, .userinfoStart] then none
    else some u

/-- The digits of a port, `none` once they exceed `0xffff`. -/
def portOf (v : Nat) : Bytes → Option Nat
  | [] => some v
  | c :: rest =>
    let v := v * 10 + digit c
    if 0xffff < v then none else portOf v rest

/-- `http_parser_parse_url`: `none` for a nonzero return. -/
def parseUrl (buf : Bytes) (isConnect : Bool) (u : Url) : Option Url :=
  if buf = [] then none
  else
    let u := { u with port := 0, fieldSet := fun _ => false }
    let s : State := if isConnect then .reqServerStart else .reqSpacesBeforeUrl
    match parseUrlLoop s none false u 0 buf with
    | none => none
    | some (u, foundAt) =>
      -- host must be present if there is a schema
      if u.fieldSet .schema ∧ ¬ u.fieldSet .host then none
      else
        match if u.fieldSet .host then parseHost buf u foundAt else some u with
        | none => none
        | some u =>
          -- CONNECT requests can only contain "hostname:port"
          if isConnect ∧ ¬ ∀ uf ∈ [UrlField.schema, .host, .port, .path, .query, .fragment,
              .userinfo], u.fieldSet uf = (uf == .host || uf == .port) then none
          else if u.fieldSet .port then
            match portOf 0 (u.component .port buf) with
            | none => none
            | some v => some { u with port := v }
          else some u

end Sylar.Http
