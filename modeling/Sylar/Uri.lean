import Sylar.HttpUrl

/-! # `Uri`

`Uri::Create` takes the components of a URL from where `http_parser_parse_url` says that they
stand, and `toString` puts them together again.  The port that a scheme has by default is set where
none is given, and left out where it is printed. -/
namespace Sylar
open Http

/-- What `std::stoi` throws. -/
inductive StoiFault
  | invalidArgument
  | outOfRange
  deriving DecidableEq, Repr

/-- `isspace` -/
def isSpace (c : UInt8) : Bool := c = 32 || (9 ≤ c && c ≤ 13)

/-- The value of some digits. -/
def natOfDigits (v : Nat) (s : Bytes) : Nat := s.foldl (fun v c => v * 10 + digit c) v

/-- `std::stoi`: the number at the beginning of the string, behind blanks and a sign. -/
def stoi (s : Bytes) : Except StoiFault Int :=
  let s := s.dropWhile isSpace
  let negative := s.head? = some (chr '-')
  let s := if s.head? = some (chr '-') ∨ s.head? = some (chr '+') then s.tail else s
  let digits := s.takeWhile isNum
  let value : Int := if negative then -(natOfDigits 0 digits) else natOfDigits 0 digits
  if digits = [] then .error .invalidArgument
  else if -2 ^ 31 ≤ value ∧ value < 2 ^ 31 then .ok value
  else .error .outOfRange

/-- `std::to_string` -/
def stdToString : Int → Bytes
  | .ofNat n => (Nat.toDigits 10 n).map chr
  | .negSucc n => chr '-' :: (Nat.toDigits 10 (n + 1)).map chr

/-- `Uri` -/
structure Uri where
  scheme_ : Bytes := []
  userInfo_ : Bytes := []
  host_ : Bytes := []
  path_ : Bytes := []
  query_ : Bytes := []
  fragment_ : Bytes := []
  port_ : Int := 0
  deriving DecidableEq, Repr

namespace Uri

/-- `std::string( urlstr.c_str() + off, len )` of a component that was found; what is not set stays
empty. -/
def field (parser : Url) (urlstr : Bytes) (uf : UrlField) : Bytes :=
  if parser.fieldSet uf then parser.component uf urlstr else []

/-- `port_` where the URL has no port: it is set for `http`, `ws` and `https`. -/
def implicitPort (scheme : Bytes) : Int :=
  if scheme = bytes "http" ∨ scheme = bytes "ws" then 80
  else if scheme = bytes "https" then 443
  else 0

/-- `Uri::Create`; a null pointer is `none`. -/
def Create (urlstr : Bytes) : Except StoiFault (Option Uri) :=
  match parseUrl urlstr false Url.init with
  | none => .ok none
  | some parser => do
    let port ← (if parser.fieldSet .port then stoi (parser.component .port urlstr)
      else .ok (implicitPort (field parser urlstr .schema)))
    return some
      { scheme_ := field parser urlstr .schema
        userInfo_ := field parser urlstr .userinfo
        host_ := field parser urlstr .host
        path_ := field parser urlstr .path
        query_ := field parser urlstr .query
        fragment_ := field parser urlstr .fragment
        port_ := port }

variable (uri : Uri)

def getPort : Int :=
  if uri.port_ ≠ 0 then uri.port_
  else if uri.scheme_ = bytes "http" ∨ uri.scheme_ = bytes "ws" then 80
  else if uri.scheme_ = bytes "https" ∨ uri.scheme_ = bytes "wss" then 443
  else uri.port_

def getPath : Bytes := if uri.path_ = [] then bytes "/" else uri.path_

def isDefaultPort : Bool :=
  if uri.scheme_ = bytes "http" ∨ uri.scheme_ = bytes "ws" then uri.port_ = 80
  else if uri.scheme_ = bytes "https" then uri.port_ = 443
  else false

def toString : Bytes :=
  uri.scheme_ ++ bytes "://" ++ uri.userInfo_ ++ (if uri.userInfo_ = [] then [] else bytes "@") ++
    uri.host_ ++ (if uri.isDefaultPort then [] else bytes ":" ++ stdToString uri.port_) ++
    uri.getPath ++ (if uri.query_ = [] then [] else bytes "?") ++ uri.query_ ++
    (if uri.fragment_ = [] then [] else bytes "#") ++ uri.fragment_

end Uri

end Sylar
