import Sylar.HttpMessage
import Mathlib.Data.List.Forall2

/-! # Requests on one connection

`HttpSession::recvRequest`: a parser and a buffer that live for one call, and the loop that
reads into the buffer and parses what it holds, until a request is finished.

What the buffer holds behind that request lives no longer than the call, and what a read has
brought of a later request is parsed into the earlier one (`pipelined_requests_merge`).  Where
every read brings bytes of one request only, and ends outside a URL, a header name and a
header value, the calls return the requests one after the other (`recvRequests_eq`). -/
namespace Sylar.Http

section Session
variable (M : Type) [HeaderMap M] (bufSize : Nat)

variable {M} in
/-- The loop of `recvRequest`.  `reads` is what the calls of `read` return, one after the other;
an empty one, or none, is a `len <= 0`.  The result is the request with the reads that are
left; there are none behind a `close`. -/
def recvLoop (o : HttpRequestParser M) (buffer : Bytes) (offset : Nat) :
    List Bytes → Option (HttpRequest M) × List Bytes
  | [] => (none, [])
  | segment :: reads =>
    if segment = [] then (none, [])
    else
      let len := offset + segment.length
      let buffer := buffer.take offset ++ segment ++ buffer.drop len
      let (o, head, nparse) := HttpRequestParser.execute o (buffer.take len)
      let buffer := head ++ buffer.drop len
      let offset := len - nparse
      if o.error ≠ 0 then (none, [])
      else if offset = bufSize then (none, [])
      else if o.finished then (some o.data.init, reads)
      else recvLoop o buffer offset reads

/-- `HttpSession::recvRequest` -/
def recvRequest (reads : List Bytes) : Option (HttpRequest M) × List Bytes :=
  recvLoop bufSize (HttpRequestParser.init M) (List.replicate bufSize 0) 0 reads

/-- So many calls of `recvRequest`, as the loop of `HttpServer::handleClient` makes them. -/
def recvRequests : Nat → List Bytes → List (Option (HttpRequest M)) × List Bytes
  | 0, reads => ([], reads)
  | n + 1, reads =>
    let (request, reads) := recvRequest M bufSize reads
    let (requests, reads) := recvRequests n reads
    (request :: requests, reads)

/-- A well-formed keep-alive request: it is finished at its last byte and not before, without
an error or an upgrade, and another may follow. -/
structure KeepAliveRequest (r : Bytes) : Prop where
  finished : (HttpRequestParser.feed (.init M) r).finished = true
  noError : (HttpRequestParser.feed (.init M) r).parser.httpErrno = none
  keepAlive : (HttpRequestParser.feed (.init M) r).parser.state = .startReq
  noUpgrade : ∀ p q, r = p ++ q → p ≠ [] →
    (HttpRequestParser.feed (.init M) p).parser.upgrade = false
  first : ∀ p q, r = p ++ q → p ≠ [] → q ≠ [] →
    (HttpRequestParser.feed (.init M) p).finished = false

instance (r : Bytes) : Decidable (KeepAliveRequest M r) :=
  decidable_of_iff
    ((HttpRequestParser.feed (.init M) r).finished = true ∧
      (HttpRequestParser.feed (.init M) r).parser.httpErrno = none ∧
      (HttpRequestParser.feed (.init M) r).parser.state = .startReq ∧
      ∀ n < r.length + 1, r.take n ≠ [] →
        (HttpRequestParser.feed (.init M) (r.take n)).parser.upgrade = false ∧
          (r.drop n ≠ [] → (HttpRequestParser.feed (.init M) (r.take n)).finished = false)) <| by
    have hcut : ∀ p q : Bytes, r = p ++ q →
        p.length < r.length + 1 ∧ r.take p.length = p ∧ r.drop p.length = q := by
      rintro p q rfl
      refine ⟨?_, List.take_left, List.drop_left⟩
      rw [List.length_append]
      omega
    constructor
    · rintro ⟨hfinished, herr, hkeep, hprefix⟩
      refine ⟨hfinished, herr, hkeep, fun p q heq hp => ?_, fun p q heq hp hq => ?_⟩
      all_goals
        obtain ⟨hlen, htake, hdrop⟩ := hcut p q heq
        have h := hprefix p.length hlen
        rw [htake, hdrop] at h
      · exact (h hp).1
      · exact (h hp).2 hq
    · intro h
      refine ⟨h.finished, h.noError, h.keepAlive, fun n _ hn => ⟨?_, fun hrest => ?_⟩⟩
      · exact h.noUpgrade _ _ (List.take_append_drop n r).symm hn
      · exact h.first _ _ (List.take_append_drop n r).symm hn hrest

/-- The reads bring this request and nothing else, none is longer than the buffer, and none
but the last ends inside a URL, a header name or a header value, or behind one of these that
is not yet over.  (A request has no reason phrase.) -/
structure ReadAs (reads : List Bytes) (r : Bytes) : Prop where
  flatten : reads.flatten = r
  fits : ∀ x ∈ reads, x ≠ [] ∧ x.length ≤ bufSize
  cuts : ∀ xs ys, reads = xs ++ ys → xs ≠ [] → ys ≠ [] →
    (HttpRequestParser.feed (.init M) xs.flatten).parser.state.torn = false ∧
      (HttpRequestParser.feed (.init M) xs.flatten).parser.state ≠ .resStatus

instance (reads : List Bytes) (r : Bytes) : Decidable (ReadAs M bufSize reads r) :=
  decidable_of_iff
    (reads.flatten = r ∧ (∀ x ∈ reads, x ≠ [] ∧ x.length ≤ bufSize) ∧
      ∀ n < reads.length + 1, reads.take n ≠ [] → reads.drop n ≠ [] →
        (HttpRequestParser.feed (.init M) (reads.take n).flatten).parser.state.torn = false ∧
          (HttpRequestParser.feed (.init M) (reads.take n).flatten).parser.state ≠ .resStatus) <| by
    constructor
    · rintro ⟨hflat, hfits, hcuts⟩
      refine ⟨hflat, hfits, fun xs ys heq hxs hys => ?_⟩
      have hlen : xs.length < reads.length + 1 := by
        rw [heq, List.length_append]
        omega
      have h := hcuts xs.length hlen
      rw [heq, List.take_left, List.drop_left] at h
      exact h hxs hys
    · intro h
      exact ⟨h.flatten, h.fits, fun n _ hxs hys =>
        h.cuts _ _ (List.take_append_drop n reads).symm hxs hys⟩

section Serving
open Segments HttpRequestParser
variable {M} {bufSize}

/-- One turn of the loop at an empty buffer, where all that was read is parsed. -/
theorem recvLoop_turn {o : HttpRequestParser M} (ho : Ready o.parser) (hzero : o.error = 0)
    {x : Bytes} (hx : x ≠ []) (hfits : x.length ≤ bufSize)
    (herr : (feed o x).parser.httpErrno = none) (hup : (feed o x).parser.upgrade = false)
    (buffer : Bytes) (reads : List Bytes) :
    ∃ buffer', recvLoop bufSize o buffer 0 (x :: reads) =
      if (feed o x).finished then (some (feed o x).data.init, reads)
      else recvLoop bufSize (feed o x) buffer' 0 reads := by
  obtain ⟨hparsed, herror⟩ := execute_quiet ho hx herr hup
  have hpos : 0 < x.length := List.length_pos_of_ne_nil hx
  have htake : (buffer.take 0 ++ x ++ buffer.drop (0 + x.length)).take (0 + x.length) = x := by
    simp
  refine ⟨(HttpRequestParser.execute o x).2.1 ++
    (buffer.take 0 ++ x ++ buffer.drop (0 + x.length)).drop (0 + x.length), ?_⟩
  rw [recvLoop, if_neg hx]
  dsimp only
  rw [htake, hparsed, Nat.zero_add, Nat.sub_self]
  have hok : ¬ (HttpRequestParser.execute o x).1.error ≠ 0 := not_not.mpr (herror.trans hzero)
  have hroom : ¬ 0 = bufSize := by omega
  rw [if_neg hok, if_neg hroom]
  rfl

/-- What is to be read, segment by segment, for the loop to return one message. -/
structure Served (o : HttpRequestParser M) (segments : List Bytes) : Prop where
  quiet : ∀ xs ys, segments = xs ++ ys → xs ≠ [] →
    (feedAll feed o xs).parser.httpErrno = none ∧ (feedAll feed o xs).parser.upgrade = false
  first : ∀ xs ys, segments = xs ++ ys → xs ≠ [] → ys ≠ [] → (feedAll feed o xs).finished = false
  finished : (feedAll feed o segments).finished = true

theorem Served.tail {o : HttpRequestParser M} {x : Bytes} {segments : List Bytes}
    (h : Served o (x :: segments)) : Served (feed o x) segments where
  quiet xs ys heq _ := h.quiet (x :: xs) ys (by rw [heq]; rfl) (List.cons_ne_nil x xs)
  first xs ys heq _ hys := h.first (x :: xs) ys (by rw [heq]; rfl) (List.cons_ne_nil x xs) hys
  finished := h.finished

/-- **The loop returns the message behind its last segment.** -/
theorem recvLoop_served {o : HttpRequestParser M} {segments : List Bytes} (ho : Ready o.parser)
    (hzero : o.error = 0) (hne : segments ≠ [])
    (hfits : ∀ x ∈ segments, x ≠ [] ∧ x.length ≤ bufSize) (h : Served o segments)
    (buffer : Bytes) (later : List Bytes) :
    recvLoop bufSize o buffer 0 (segments ++ later) =
      (some (feedAll feed o segments).data.init, later) := by
  induction segments generalizing o buffer with
  | nil => exact absurd rfl hne
  | cons x segments ih =>
    obtain ⟨hx, hlen⟩ := hfits x (List.mem_cons_self ..)
    obtain ⟨herr, hup⟩ := h.quiet [x] segments rfl (List.cons_ne_nil x [])
    obtain ⟨buffer', hturn⟩ := recvLoop_turn ho hzero hx hlen herr hup buffer (segments ++ later)
    rw [List.cons_append, hturn]
    rcases eq_or_ne segments [] with rfl | hmore
    · have hends : (feed o x).finished = true := h.finished
      rw [if_pos hends]
      rfl
    · have hgoes : ¬ (feed o x).finished = true := by
        rw [show (feed o x).finished = false from
          h.first [x] segments rfl (List.cons_ne_nil x []) hmore]
        decide
      rw [if_neg hgoes]
      exact ih (resumes.keeps ho hx) ((execute_quiet ho hx herr hup).2.trans hzero) hmore
        (fun y hy => hfits y (List.mem_cons_of_mem x hy)) h.tail buffer'

/-- Reads that bring one request meet at seams. -/
theorem ReadAs.atSeams {reads : List Bytes} {r : Bytes} (h : ReadAs M bufSize reads r)
    (hr : KeepAliveRequest M r) : AtSeams feed HttpRequestParser.Seam (init M) reads := by
  refine resumes.atSeams_of_prefixes (fun _ _ _ => HttpRequestParser.Seam.left) (ready M)
    (fun x hx => (h.fits x hx).1) fun xs ys heq hxs hys => ?_
  obtain ⟨htorn, hstatus⟩ := h.cuts xs ys heq hxs hys
  have hflat : r = xs.flatten ++ ys.flatten := by rw [← h.flatten, heq, List.flatten_append]
  have hne : xs.flatten ≠ [] := by
    obtain ⟨x, zs, rfl⟩ := List.exists_cons_of_ne_nil hxs
    have hx := (h.fits x (by rw [heq]; exact List.mem_cons_self ..)).1
    exact List.append_ne_nil_of_left_ne_nil hx _
  have herr := hr.noError
  rw [hflat] at herr
  exact (HttpRequestParser.seam_of_no_error (ready M) hne herr htorn hstatus
    (hr.noUpgrade _ _ hflat hne)).1

/-- The reads that bring one request serve it. -/
theorem ReadAs.served {reads : List Bytes} {r : Bytes} (h : ReadAs M bufSize reads r)
    (hr : KeepAliveRequest M r) : Served (init M) reads := by
  have hseams := h.atSeams hr
  -- a prefix of the reads is as good as the bytes it brings
  have hwhole : ∀ xs ys, reads = xs ++ ys → xs ≠ [] →
      feedAll feed (init M) xs = feed (init M) xs.flatten ∧ xs.flatten ≠ [] ∧
        r = xs.flatten ++ ys.flatten := by
    intro xs ys heq hxs
    rw [heq] at hseams
    have hleft := hseams.left fun _ _ _ => HttpRequestParser.Seam.left
    refine ⟨resumes.feedAll_flatten (ready M) hxs hleft, hleft.flatten_ne_nil hxs, ?_⟩
    rw [← h.flatten, heq, List.flatten_append]
  have hne : reads ≠ [] := by
    rintro rfl
    have hempty : r = [] := h.flatten.symm
    have hfinished := hr.finished
    rw [hempty] at hfinished
    cases hfinished
  constructor
  case quiet =>
    intro xs ys heq hxs
    obtain ⟨hfeed, hflat, hcut⟩ := hwhole xs ys heq hxs
    rw [hfeed]
    refine ⟨?_, hr.noUpgrade _ _ hcut hflat⟩
    rcases eq_or_ne ys [] with rfl | hys
    · rw [List.flatten_nil, List.append_nil] at hcut
      rw [← hcut]
      exact hr.noError
    · obtain ⟨htorn, hstatus⟩ := h.cuts xs ys heq hxs hys
      have herr := hr.noError
      rw [hcut] at herr
      exact (HttpRequestParser.seam_of_no_error (ready M) hflat herr htorn hstatus
        (hr.noUpgrade _ _ hcut hflat)).2
  case first =>
    intro xs ys heq hxs hys
    obtain ⟨hfeed, hflat, hcut⟩ := hwhole xs ys heq hxs
    rw [hfeed]
    refine hr.first _ _ hcut hflat ?_
    obtain ⟨y, zs, rfl⟩ := List.exists_cons_of_ne_nil hys
    have hy := (h.fits y (by rw [heq]; exact List.mem_append_right _ (List.mem_cons_self ..))).1
    exact List.append_ne_nil_of_left_ne_nil hy _
  case finished =>
    have hfeed := (hwhole reads [] (List.append_nil reads).symm hne).1
    rw [hfeed, h.flatten]
    exact hr.finished

/-- **One call of `recvRequest` returns one request**, and leaves the reads behind it. -/
theorem recvRequest_eq {reads : List Bytes} {r : Bytes} (h : ReadAs M bufSize reads r)
    (hr : KeepAliveRequest M r) (later : List Bytes) :
    recvRequest M bufSize (reads ++ later) = (some (feed (init M) r).data.init, later) := by
  have hserved := h.served hr
  have hne : reads ≠ [] := by
    rintro rfl
    cases hserved.finished
  have hwhole : feedAll feed (init M) reads = feed (init M) r := by
    rw [← h.flatten]
    exact resumes.feedAll_flatten (ready M) hne (h.atSeams hr)
  unfold recvRequest
  rw [recvLoop_served (ready M) rfl hne h.fits hserved, hwhole]

/-- **The calls return the requests one after the other**, each as it is parsed alone, where the
reads bring bytes of one request each and end outside the spans that a cut tears. -/
theorem recvRequests_eq {requests : List Bytes} {reads : List (List Bytes)}
    (hrequests : ∀ r ∈ requests, KeepAliveRequest M r)
    (hreads : List.Forall₂ (ReadAs M bufSize) reads requests) (later : List Bytes) :
    recvRequests M bufSize requests.length (reads.flatten ++ later) =
      (requests.map fun r => some (feed (init M) r).data.init, later) := by
  induction hreads with
  | nil => rfl
  | @cons segments r reads requests hread _ ih =>
    have hr := hrequests r (List.mem_cons_self ..)
    have hrest := ih fun q hq => hrequests q (List.mem_cons_of_mem r hq)
    rw [List.flatten_cons, List.append_assoc, List.length_cons, List.map_cons, recvRequests,
      recvRequest_eq hread hr]
    dsimp only
    rw [hrest]

end Serving

section Examples

/-- A request with a body of one byte. -/
def postOne (path : String) (body : String) : Bytes :=
  bytes ("POST " ++ path ++ " HTTP/1.1\r\ncontent-length: 1\r\n\r\n" ++ body)

theorem recvRequests_eq_two :
    recvRequests (List (Bytes × Bytes)) 4096 2
        [bytes "POST /a HTTP/1.1\r\n", bytes "content-length: 1\r\n\r\n", bytes "x",
          postOne "/b" "y"] =
      ([some (HttpRequestParser.feed (.init _) (postOne "/a" "x")).data.init,
        some (HttpRequestParser.feed (.init _) (postOne "/b" "y")).data.init], []) :=
  have hfirst : ReadAs (List (Bytes × Bytes)) 4096
      [bytes "POST /a HTTP/1.1\r\n", bytes "content-length: 1\r\n\r\n", bytes "x"]
      (postOne "/a" "x") := by decide +kernel
  have hsecond : ReadAs (List (Bytes × Bytes)) 4096 [postOne "/b" "y"] (postOne "/b" "y") := by
    decide +kernel
  recvRequests_eq (by decide +kernel) (.cons hfirst (.cons hsecond .nil)) []

/-- Two requests in one read: the first call returns the path of the second with the bodies of
both, and the second call finds nothing to read. -/
theorem pipelined_requests_merge :
    KeepAliveRequest (List (Bytes × Bytes)) (postOne "/a" "x") ∧
      KeepAliveRequest (List (Bytes × Bytes)) (postOne "/b" "y") ∧
      (postOne "/a" "x" ++ postOne "/b" "y").length ≤ 4096 ∧
      (recvRequests (List (Bytes × Bytes)) 4096 2 [postOne "/a" "x" ++ postOne "/b" "y"]).1.map
          (Option.map fun r => (r.path, r.body)) =
        [some (bytes "/b", bytes "xy"), none] ∧
      (HttpRequestParser.feed (.init (List (Bytes × Bytes))) (postOne "/a" "x")).data.init.path =
        bytes "/a" ∧
      (HttpRequestParser.feed (.init (List (Bytes × Bytes))) (postOne "/a" "x")).data.init.body =
        bytes "x" := by
  decide +kernel

end Examples

end Session

end Sylar.Http
