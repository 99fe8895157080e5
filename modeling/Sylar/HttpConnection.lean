import Sylar.HttpHeaders
import Sylar.Interleaving
import Sylar.SocketStream

/-! # Receiving a response

`HttpConnection::recvResponse` reads into a buffer and hands what is in it to the parser, until
a response is finished.  How large the buffer is, it asks `HttpResponseParser`.

That size is 0 at the start, and nothing sets it: what is configured, and what may change later,
are the sizes for requests.  So the first `read` is one of no bytes, and no response is ever
returned: **`recvResponse_never`**.  With a buffer of another size the loop also writes a zero
behind what it has read: **`recvBuffer_inside_iff`** says in which runs that is in the
buffer. -/
namespace Sylar.Http
open Interleaving

/-! ## The sizes -/

/-- `s_http_request_buffer_size` and the other statics. -/
structure BufferSizes where
  requestBufferSize : Nat := 0
  requestMaxBodySize : Nat := 0
  responseBufferSize : Nat := 0
  responseMaxBodySize : Nat := 0
  deriving DecidableEq

/-- What writes to them: the constructor of `RequestSizeIniter`, with the values of the two
variables of the configuration, and the listeners that it adds to these. -/
inductive SizeEvent
  | initer (bufferSize maxBodySize : Nat)
  | bufferSizeListener (newVal : Nat)
  | maxBodySizeListener (newVal : Nat)

def SizeEvent.run (s : BufferSizes) : SizeEvent → BufferSizes
  | .initer bufferSize maxBodySize =>
    { s with requestBufferSize := bufferSize, requestMaxBodySize := maxBodySize }
  | .bufferSizeListener newVal => { s with requestBufferSize := newVal }
  | .maxBodySizeListener newVal => { s with requestMaxBodySize := newVal }

/-- The statics of a program, in any order of these. -/
def sizes : Machine BufferSizes SizeEvent where
  init s := s = {}
  step s e := some (e.run s)

/-- `GetHttpResponseBufferSize` -/
def BufferSizes.getHttpResponseBufferSize (s : BufferSizes) : Nat := s.responseBufferSize

theorem responseBufferSize_eq {s : BufferSizes} (hs : sizes.Reachable s) :
    s.getHttpResponseBufferSize = 0 := by
  refine @Machine.Reachable.invariant _ _ _ (fun s => s.getHttpResponseBufferSize = 0) ?_ ?_ _ hs
  · rintro s rfl
    rfl
  · intro s e t hzero hstep
    obtain rfl := Option.some.inj hstep
    cases e <;> exact hzero

/-! ## The loop -/

/-- A `read` of at most `n` bytes: what has come of the next segment, and what is still to come.
There is nothing at the end of the stream, and where no bytes are asked for. -/
def recv (n : Nat) : List Bytes → Bytes × List Bytes
  | [] => ([], [])
  | segment :: pending =>
    if segment.length ≤ n then (segment, pending)
    else (segment.take n, segment.drop n :: pending)

theorem recv_flatten (n : Nat) (pending : List Bytes) :
    (recv n pending).1 ++ (recv n pending).2.flatten = pending.flatten := by
  cases pending with
  | nil => rfl
  | cons segment pending =>
    rw [recv]
    split
    · rfl
    · rw [List.flatten_cons, List.flatten_cons, ← List.append_assoc, List.take_append_drop]

theorem length_recv (n : Nat) (pending : List Bytes) : (recv n pending).1.length ≤ n := by
  cases pending with
  | nil => exact Nat.zero_le n
  | cons segment pending =>
    rw [recv]
    split
    · assumption
    · rw [List.length_take]
      omega

/-- There is less to come behind a `read` that returns something. -/
theorem recv_shorter {n : Nat} {pending : List Bytes} (h : (recv n pending).1 ≠ []) :
    (recv n pending).2.flatten.length < pending.flatten.length := by
  have hflat := congrArg List.length (recv_flatten n pending)
  have hpos := List.length_pos_of_ne_nil h
  rw [List.length_append] at hflat
  omega

/-- What a turn of the loop depends on: the value that `read` returns, the number of bytes that
are parsed, and what the parser says behind them. -/
structure RecvTurn where
  ret : Nat
  nparse : Nat
  hasError : Bool
  finished : Bool
  deriving DecidableEq

/-- `len += offset` -/
def addOffset (ret : Nat) (offset : Int) : Int := Int.bmod (ret + offset) (2 ^ 32)

/-- `offset = len - nparse` -/
def nextOffset (len : Int) (nparse : Nat) : Int := Int.bmod (len - nparse) (2 ^ 32)

section Connection
variable {M : Type} [HeaderMap M] (bufSize : Nat)

namespace HttpResponseParser
omit [HeaderMap M]
variable (o : HttpResponseParser M)

def getData : HttpResponse M := o.session.2.data

def isFinished : Bool := o.session.2.finished

def hasError : Bool := o.error ≠ 0

end HttpResponseParser

/-- The loop of `recvResponse`, with the turns it takes.  `vector` is what the buffer holds; a
zero behind its end is not written here. -/
def recvResponseLoop (o : HttpResponseParser M) (vector : Bytes) (offset : Int)
    (pending : List Bytes) : Option (HttpResponse M) × List RecvTurn :=
  let read := recv (bufSize - offset).toNat pending
  if _hread : read.1 = [] then (none, [])
  else
    let len := addOffset read.1.length offset
    let vector := vector.take offset.toNat ++ read.1 ++
      vector.drop (offset.toNat + read.1.length)
    let vector := vector.set len.toNat 0
    let r := HttpResponseParser.execute o (vector.take len.toNat)
    let turn : RecvTurn := ⟨read.1.length, r.2.2, r.1.hasError, r.1.isFinished⟩
    if r.1.hasError then (none, [turn])
    else
      let rest := nextOffset len r.2.2
      if rest = Stream.intOf bufSize then (none, [turn])
      else if r.1.isFinished then (some r.1.getData, [turn])
      else
        let later := recvResponseLoop r.1 (r.2.1 ++ vector.drop len.toNat) rest read.2
        (later.1, turn :: later.2)
termination_by pending.flatten.length
decreasing_by exact recv_shorter _hread

/-- `HttpConnection::recvResponse`, with the turns of its loop. -/
def recvResponse (pending : List Bytes) : Option (HttpResponse M) × List RecvTurn :=
  recvResponseLoop bufSize (.init M) (List.replicate bufSize 0) 0 pending

/-- Into an empty buffer nothing is read. -/
theorem recvResponse_zero (pending : List Bytes) :
    (recvResponse 0 pending : Option (HttpResponse M) × _) = (none, []) := by
  have hempty : (recv 0 pending).1 = [] := List.eq_nil_of_length_eq_zero
    (Nat.le_zero.mp (length_recv 0 pending))
  rw [recvResponse, recvResponseLoop]
  exact dif_pos hempty

/-- **No response is received**, whatever the peer sends and however it comes. -/
theorem recvResponse_never {s : BufferSizes} (hs : sizes.Reachable s) (pending : List Bytes) :
    (recvResponse s.getHttpResponseBufferSize pending : Option (HttpResponse M) × _).1 = none := by
  rw [responseBufferSize_eq hs, recvResponse_zero]

end Connection

/-- A response with the length of its body. -/
def okResponse : Bytes := bytes "HTTP/1.1 200 OK\r\nContent-Length: 2\r\n\r\nhi"

/-- With room for it, it is received. -/
example : (recvResponse 64 [okResponse] : Option (HttpResponse EntryList) × _).1.map
    (·.body) = some (bytes "hi") := by
  rw [recvResponse, recvResponseLoop]
  decide +kernel

/-- The sizes behind the start of a program with the values of the configuration. -/
def startSizes : BufferSizes :=
  { requestBufferSize := 4 * 1024, requestMaxBodySize := 64 * 1024 * 1024 }

theorem startSizes_reachable : sizes.Reachable startSizes :=
  ⟨_, (Machine.Run.init rfl).step (a := .initer (4 * 1024) (64 * 1024 * 1024)) rfl⟩

theorem recvResponse_never_started :
    (recvResponse startSizes.getHttpResponseBufferSize [okResponse] :
      Option (HttpResponse EntryList) × _).1 = none :=
  recvResponse_never startSizes_reachable [okResponse]

/-- A response that is complete for the parser comes in one piece, and is not returned. -/
theorem recvResponse_loses_response :
    sizes.Reachable startSizes ∧
      (HttpResponseParser.feed (.init EntryList) okResponse).isFinished = true ∧
      (HttpResponseParser.feed (.init EntryList) okResponse).hasError = false ∧
      (HttpResponseParser.feed (.init EntryList) okResponse).getData.body = bytes "hi" ∧
      (recvResponse startSizes.getHttpResponseBufferSize [okResponse] :
        Option (HttpResponse EntryList) × _).1 = none := by
  refine ⟨startSizes_reachable, by decide +kernel, by decide +kernel, by decide +kernel, ?_⟩
  have hzero : startSizes.getHttpResponseBufferSize = 0 := rfl
  rw [hzero, recvResponse_zero]

/-! ## The buffer -/

/-- Where the loop is: the offset at which it reads, or that it is over. -/
structure RecvState where
  offset : Int
  running : Bool
  deriving DecidableEq

/-- What the loop does with the buffer. -/
inductive BufferAccess
  /-- `read( buffer.data() + offset, length )` -/
  | read (offset length : Int)
  /-- `buffer[index] = '\0'` -/
  | store (index : Int)
  /-- `execute( buffer.data(), length )` -/
  | execute (length : Int)

/-- The access is one of the `n` bytes of the buffer, and a `read` is not of nothing. -/
def BufferAccess.Inside (n : Nat) : BufferAccess → Prop
  | .read offset length => 0 ≤ offset ∧ offset < n ∧ 0 < length ∧ length ≤ n - offset
  | .store index => 0 ≤ index ∧ index < n
  | .execute length => 0 ≤ length ∧ length ≤ n

section Buffer
variable (n : Nat)

/-- The next `read`. -/
def RecvState.nextRead (s : RecvState) : BufferAccess := .read s.offset (n - s.offset)

/-- The accesses of a turn. -/
def RecvTurn.accesses (s : RecvState) (t : RecvTurn) : List BufferAccess :=
  [s.nextRead n, .store (addOffset t.ret s.offset), .execute (addOffset t.ret s.offset)]

/-- What a turn may be: an `int` between 1 and the length that is asked for, and no more bytes
parsed than there are. -/
def RecvTurn.Possible (s : RecvState) (t : RecvTurn) : Prop :=
  s.running = true ∧ 1 ≤ t.ret ∧ (t.ret : Int) ≤ n - s.offset ∧ t.ret < 2 ^ 31 ∧
    t.nparse ≤ (addOffset t.ret s.offset).toNat

instance (s : RecvState) (t : RecvTurn) : Decidable (t.Possible n s) :=
  inferInstanceAs (Decidable (_ ∧ _ ∧ _ ∧ _ ∧ _))

/-- The loop behind a turn. -/
def RecvTurn.next (s : RecvState) (t : RecvTurn) : RecvState :=
  let rest := nextOffset (addOffset t.ret s.offset) t.nparse
  { offset := rest
    running := !t.hasError && rest ≠ Stream.intOf n && !t.finished }

/-- The loop over a buffer of `n` bytes, for any reads and any parser. -/
def recvMachine : Machine RecvState RecvTurn where
  init s := s = ⟨0, true⟩
  step s t := if t.Possible n s then some (t.next n s) else none

/-- The read does not fill what is left of the buffer, and an `int` holds the length. -/
def RecvTurn.Fits (s : RecvState) (t : RecvTurn) : Prop :=
  s.offset + t.ret < n ∧ s.offset + t.ret < 2 ^ 31

/-- Where the loop reads next is in the buffer. -/
def RecvState.Within (s : RecvState) : Prop :=
  s.running = true → 0 ≤ s.offset ∧ s.offset < n ∧ s.offset < 2 ^ 31

variable {n} {s u : RecvState} {t : RecvTurn}

theorem recvMachine_step : (recvMachine n).step s t = some u ↔ t.Possible n s ∧ u = t.next n s := by
  show (if _ then _ else _) = _ ↔ _
  split
  · rename_i h
    simp [h, eq_comm]
  · rename_i h
    simp [h]

theorem addOffset_fits {ret : Nat} {offset : Int} (hpos : 0 ≤ offset)
    (hlt : offset + ret < 2 ^ 31) : addOffset ret offset = offset + ret := by
  rw [addOffset, Int.add_comm]
  exact Int.bmod_eq_of_le (by omega) (by omega)

/-- **A turn**: the zero is written in the buffer exactly where the read fits. -/
theorem accesses_inside_iff (hs : s.Within n) (ht : t.Possible n s) :
    (∀ a ∈ t.accesses n s, a.Inside n) ↔ t.Fits n s := by
  obtain ⟨hrun, hret, hmax, hint, -⟩ := ht
  obtain ⟨hpos, hlt, hsmall⟩ := hs hrun
  constructor
  · intro hall
    have hstore : 0 ≤ addOffset t.ret s.offset ∧ addOffset t.ret s.offset < n :=
      hall (.store (addOffset t.ret s.offset)) (by simp [RecvTurn.accesses])
    have hwrap := hstore.1
    rw [addOffset, Int.bmod_def] at hwrap
    have hsum : s.offset + t.ret < 2 ^ 31 := by omega
    rw [addOffset_fits hpos hsum] at hstore
    exact ⟨hstore.2, hsum⟩
  · rintro ⟨hfull, hsum⟩ a ha
    simp only [RecvTurn.accesses, addOffset_fits hpos hsum, List.mem_cons, List.not_mem_nil,
      or_false] at ha
    rcases ha with rfl | rfl | rfl
    · exact ⟨hpos, hlt, by omega, by omega⟩
    · exact ⟨by omega, hfull⟩
    · exact ⟨by omega, by omega⟩

/-- Behind a turn that fits there is room for the next one. -/
theorem within_next (hs : s.Within n) (ht : t.Possible n s) (hfits : t.Fits n s) :
    (t.next n s).Within n := by
  obtain ⟨hrun, hret, -, -, hparse⟩ := ht
  obtain ⟨hpos, -, -⟩ := hs hrun
  obtain ⟨hfull, hsum⟩ := hfits
  rw [addOffset_fits hpos hsum] at hparse
  have hrest : nextOffset (addOffset t.ret s.offset) t.nparse = s.offset + t.ret - t.nparse := by
    rw [addOffset_fits hpos hsum, nextOffset]
    exact Int.bmod_eq_of_le (by omega) (by omega)
  intro _
  show 0 ≤ nextOffset _ _ ∧ nextOffset _ _ < _ ∧ nextOffset _ _ < _
  rw [hrest]
  omega

/-- **When the loop stays inside its buffer**, in every run: exactly when no read fills what is
left of it, and no length is too large for an `int`.  The last `read` is the one that no turn
has followed yet. -/
theorem recvBuffer_inside_iff (hn : 1 ≤ n) {tr : List (RecvState × RecvTurn)}
    (hrun : (recvMachine n).Run tr s) :
    ((∀ p ∈ tr, ∀ a ∈ p.2.accesses n p.1, a.Inside n) ∧
      (s.running = true → (s.nextRead n).Inside n)) ↔ ∀ p ∈ tr, p.2.Fits n p.1 := by
  have hinit : ∀ s, (recvMachine n).init s → s.Within n := by
    rintro s rfl _
    exact ⟨Int.le_refl 0, by show (0 : Int) < n; omega, by decide⟩
  have hkeep : ∀ s t u, s.Within n → t.Fits n s → (recvMachine n).step s t = some u →
      u.Within n := by
    intro s t u hs hfits hstep
    obtain ⟨hposs, rfl⟩ := recvMachine_step.mp hstep
    exact within_next hs hposs hfits
  constructor
  · rintro ⟨hall, -⟩
    induction hrun with
    | init _ =>
      intro p hp
      cases hp
    | @step tr s u t hrun hstep ih =>
      have hprev := ih fun p hp => hall p (List.mem_append_left _ hp)
      have hs : s.Within n := hrun.invariant (fun s t => t.Fits n s) hinit hkeep hprev
      intro p hp
      rcases List.mem_append.mp hp with hp | hp
      · exact hprev p hp
      · have hlast := hall p (List.mem_append_right _ hp)
        rw [List.mem_singleton.mp hp] at hlast ⊢
        exact (accesses_inside_iff hs (recvMachine_step.mp hstep).1).mp hlast
  · intro hfits
    constructor
    · intro p hp
      have hs : p.1.Within n :=
        hrun.invariant_mem (fun s t => t.Fits n s) hinit hkeep hfits hp
      obtain ⟨-, -, -, u, hstep⟩ := hrun.mem_trace hp
      exact (accesses_inside_iff hs (recvMachine_step.mp hstep).1).mpr (hfits p hp)
    · intro hrunning
      have hs : s.Within n := hrun.invariant (fun s t => t.Fits n s) hinit hkeep hfits
      obtain ⟨hpos, hlt, -⟩ := hs hrunning
      exact ⟨hpos, hlt, by omega, by omega⟩

end Buffer

/-- Two reads into eight bytes, and room for one more. -/
theorem recvBuffer_inside_iff_short : ∃ tr s, (recvMachine 8).Run tr s ∧
    tr.map Prod.snd = [⟨5, 4, false, false⟩, ⟨6, 7, false, true⟩] ∧
    (∀ p ∈ tr, ∀ a ∈ p.2.accesses 8 p.1, a.Inside 8) ∧
      (s.running = true → (s.nextRead 8).Inside 8) := by
  have hrun : (recvMachine 8).Run _ _ :=
    Machine.Run.of_exec_init rfl [⟨5, 4, false, false⟩, ⟨6, 7, false, true⟩] rfl
  refine ⟨_, _, hrun, rfl, (recvBuffer_inside_iff (by decide) hrun).mpr ?_⟩
  exact List.forall_mem_cons.mpr ⟨⟨by decide, by decide⟩,
    List.forall_mem_singleton.mpr ⟨by decide, by decide⟩⟩

/-- A read of eight bytes into eight: the zero is written behind the buffer. -/
theorem recvBuffer_zero_behind : ∃ tr s, (recvMachine 8).Run tr s ∧
    ¬ ((∀ p ∈ tr, ∀ a ∈ p.2.accesses 8 p.1, a.Inside 8) ∧
      (s.running = true → (s.nextRead 8).Inside 8)) := by
  have hrun : (recvMachine 8).Run _ _ :=
    Machine.Run.of_exec_init rfl [⟨8, 8, false, true⟩] rfl
  refine ⟨_, _, hrun, fun h => ?_⟩
  have hstore : 0 ≤ addOffset 8 0 ∧ addOffset 8 0 < (8 : Nat) :=
    h.1 (⟨0, true⟩, ⟨8, 8, false, true⟩) (List.mem_cons_self ..) (.store (addOffset 8 0))
      (by simp [RecvTurn.accesses])
  exact absurd hstore (by decide)

/-! ## The loop of a response is such a run -/

section Loop
variable {M : Type} [HeaderMap M] {n : Nat}

omit [HeaderMap M] in
theorem execute_le {σ : Type} (s : Settings σ) (st : Session σ) (data : Bytes) :
    (execute s st data).2 ≤ max 1 data.length := by
  obtain ⟨p, u⟩ := st
  unfold execute executeEof Outcome.close
  grind

/-- What is not parsed leaves room, unless it fills the buffer. -/
theorem rest_within {offset : Int} {ret nparse : Nat} (hpos : 0 ≤ offset)
    (hfit : (ret : Int) ≤ n - offset) (hparsed : nparse ≤ (offset + ret).toNat)
    (hfull : offset + ret - nparse ≠ n) :
    0 ≤ offset + ret - nparse ∧ offset + ret - nparse < n := by
  omega

/-- **What one turn of the loop does**: nothing is read, or the machine takes a step, behind which
the loop has ended or goes on with less to come. -/
theorem recvResponseLoop_turn (hint : n < 2 ^ 31) (o : HttpResponseParser M) (vector : Bytes)
    {offset : Int} (hpos : 0 ≤ offset) (hlt : offset < n) (pending : List Bytes) :
    (recvResponseLoop n o vector offset pending).2 = [] ∨
      ∃ t : RecvTurn, (recvMachine n).step ⟨offset, true⟩ t = some (t.next n ⟨offset, true⟩) ∧
        ((recvResponseLoop n o vector offset pending).2 = [t] ∨
          ∃ (o' : HttpResponseParser M) (vector' : Bytes) (rest : Int) (later : List Bytes),
            later.flatten.length < pending.flatten.length ∧ 0 ≤ rest ∧ rest < n ∧
            t.next n ⟨offset, true⟩ = ⟨rest, true⟩ ∧
            (recvResponseLoop n o vector offset pending).2 =
              t :: (recvResponseLoop n o' vector' rest later).2) := by
  rw [recvResponseLoop]
  by_cases hread : (recv (n - offset).toNat pending).1 = []
  · exact .inl (by rw [dif_pos hread])
  rw [dif_neg hread]
  have hret := List.length_pos_of_ne_nil hread
  have hshort := recv_shorter hread
  have hasked := length_recv (n - offset).toNat pending
  generalize recv (n - offset).toNat pending = read at hread hret hshort hasked
  have hfit : (read.1.length : Int) ≤ n - offset := by omega
  have hsmall : read.1.length < 2 ^ 31 := by omega
  have hsum : addOffset read.1.length offset = offset + read.1.length :=
    addOffset_fits hpos (by omega)
  dsimp only
  generalize ((vector.take offset.toNat ++ read.1 ++
    vector.drop (offset.toNat + read.1.length)).set
      (addOffset read.1.length offset).toNat 0) = full
  have hparsed : (HttpResponseParser.execute o
      (full.take (addOffset read.1.length offset).toNat)).2.2 ≤
      (addOffset read.1.length offset).toNat := by
    have hle := execute_le (responseSettings M) o.session
      (full.take (addOffset read.1.length offset).toNat)
    rw [List.length_take] at hle
    refine Nat.le_trans hle ?_
    omega
  generalize HttpResponseParser.execute o
    (full.take (addOffset read.1.length offset).toNat) = r at hparsed
  have hstep := recvMachine_step.mpr ⟨(⟨rfl, hret, hfit, hsmall, hparsed⟩ : RecvTurn.Possible n
    ⟨offset, true⟩ ⟨read.1.length, r.2.2, r.1.hasError, r.1.isFinished⟩), rfl⟩
  refine .inr ⟨_, hstep, ?_⟩
  by_cases herr : r.1.hasError = true
  · exact .inl (by rw [if_pos herr])
  rw [if_neg herr]
  by_cases hfull : nextOffset (addOffset read.1.length offset) r.2.2 = Stream.intOf n
  · exact .inl (by rw [if_pos hfull])
  rw [if_neg hfull]
  by_cases hdone : r.1.isFinished = true
  · exact .inl (by rw [if_pos hdone])
  rw [if_neg hdone]
  have hrest : nextOffset (addOffset read.1.length offset) r.2.2 =
      offset + read.1.length - r.2.2 := by
    rw [hsum, nextOffset]
    exact Int.bmod_eq_of_le (by omega) (by omega)
  have hn : Stream.intOf n = n := Int.bmod_eq_of_le (by omega) (by omega)
  have hgoes : RecvTurn.next n ⟨offset, true⟩
      ⟨read.1.length, r.2.2, r.1.hasError, r.1.isFinished⟩ =
      ⟨nextOffset (addOffset read.1.length offset) r.2.2, true⟩ := by
    simp [RecvTurn.next, herr, hfull, hdone]
  have hroom : 0 ≤ nextOffset (addOffset read.1.length offset) r.2.2 ∧
      nextOffset (addOffset read.1.length offset) r.2.2 < n := by
    rw [hrest, hn] at hfull
    rw [hsum] at hparsed
    rw [hrest]
    exact rest_within hpos hfit hparsed hfull
  exact .inr ⟨r.1, _, _, read.2, hshort, hroom.1, hroom.2, hgoes, rfl⟩

/-- The turns that the loop takes are possible, one after the other. -/
theorem recvResponseLoop_exec (hint : n < 2 ^ 31) (o : HttpResponseParser M) (vector : Bytes)
    {offset : Int} (hpos : 0 ≤ offset) (hlt : offset < n) (pending : List Bytes) :
    ∃ u, (recvMachine n).exec ⟨offset, true⟩ (recvResponseLoop n o vector offset pending).2 =
      some u := by
  induction hlen : pending.flatten.length using Nat.strongRecOn generalizing o vector offset pending
    with
  | ind k ih =>
    rcases recvResponseLoop_turn hint o vector hpos hlt pending with hnone | ⟨t, hstep, hturn⟩
    · rw [hnone]
      exact ⟨_, rfl⟩
    · rcases hturn with hlast | ⟨o', vector', rest, later, hshort, hrest, hroom, hgoes, hturns⟩
      · rw [hlast, Machine.exec_cons hstep]
        exact ⟨_, rfl⟩
      · rw [hturns, Machine.exec_cons hstep, hgoes]
        exact ih _ (hlen ▸ hshort) o' vector' hrest hroom later rfl

/-- A response is received by a run of the loop, into any buffer that an `int` can measure. -/
theorem recvResponse_run (hn : 1 ≤ n) (hint : n < 2 ^ 31) (pending : List Bytes) :
    ∃ u, (recvMachine n).Run ((recvMachine n).traceOf ⟨0, true⟩
      (recvResponse n pending : Option (HttpResponse M) × _).2) u := by
  obtain ⟨u, hexec⟩ := recvResponseLoop_exec hint (.init M) (List.replicate n 0) (Int.le_refl 0)
    (by omega) pending
  exact ⟨u, Machine.Run.of_exec_init rfl _ hexec⟩

end Loop
end Sylar.Http
