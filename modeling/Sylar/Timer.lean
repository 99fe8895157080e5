import Mathlib.Data.Prod.Lex
import Sylar.Fiber
import Sylar.OrderedSet

/-! # Timers

`m_timers` is an ordered set of pointers, compared by `m_next` and then by address.  A
`TimerId` is the address of a timer; `timer` holds the objects, `allocated` tells which
addresses have one.  Times are `uint64_t` milliseconds, and the operations on them wrap.

Each definition is one section under `m_mutex`, with the clock it reads as an argument.
What a section may not do at all, such as reading the first element of an empty set, is
a `none`.

**`Valid`** says that the set is in the order of the timers' present `m_next`; every
section keeps it. -/
namespace Sylar

/-- The address of a timer. -/
abbrev TimerId := Nat

/-- `std::numeric_limits<std::uint64_t>::max()`. -/
def uint64Max : Nat := UInt64.size - 1

def add64 (a b : Nat) : Nat := (a + b) % UInt64.size

def sub64 (a b : Nat) : Nat := (a + (UInt64.size - b % UInt64.size)) % UInt64.size

structure Timer where
  recurring : Bool
  ms : Nat
  next : Nat
  cb : Option CallbackId
  deriving DecidableEq, Repr

/-- `Timer( ms, cb, recurring, manager )`, at the time `now`. -/
def Timer.new (now ms : Nat) (cb : Option CallbackId) (recurring : Bool) : Timer :=
  { recurring, ms, next := add64 now ms, cb }

/-- `Timer( next )`. -/
def Timer.at (next : Nat) : Timer := { recurring := false, ms := 0, next, cb := none }

/-- `Timer::SPtr`, when it is not null. -/
structure TimerPtr where
  get : TimerId
  timer : Timer

/-- `Timer::Comparator`. -/
def comparator : Option TimerPtr → Option TimerPtr → Bool
  | none, none => false
  | none, some _ => true
  | some _, none => false
  | some lhs, some rhs =>
    if lhs.timer.next < rhs.timer.next then true
    else if rhs.timer.next < lhs.timer.next then false
    else decide (lhs.get < rhs.get)

/-- Pointers are compared by the deadline, and then by the address. -/
theorem comparator_iff (a b : TimerPtr) :
    comparator (some a) (some b) = true ↔
      toLex (a.timer.next, a.get) < toLex (b.timer.next, b.get) := by
  rw [Prod.Lex.toLex_lt_toLex, comparator]
  split_ifs with hlt hgt
  · exact iff_of_true rfl (Or.inl hlt)
  · refine iff_of_false nofun ?_
    rintro (h | ⟨h, -⟩)
    · exact hlt h
    · exact absurd (Nat.lt_of_lt_of_eq hgt h) (lt_irrefl _)
  · rw [decide_eq_true_eq]
    have heq : a.timer.next = b.timer.next := Nat.le_antisymm (not_lt.mp hgt) (not_lt.mp hlt)
    exact ⟨fun h => Or.inr ⟨heq, h⟩, fun h => h.elim (fun h => absurd h hlt) And.right⟩

structure TimerManager where
  timers : List TimerId
  timer : TimerId → Timer
  allocated : TimerId → Bool
  tickled : Bool
  previouseTime : Nat

namespace TimerManager

/-- `TimerManager()`, at the time `now`. -/
def new (now : Nat) : TimerManager :=
  { timers := []
    timer := fun _ => .at 0
    allocated := fun _ => false
    tickled := false
    previouseTime := now }

def ptr (m : TimerManager) (id : TimerId) : Option TimerPtr := some ⟨id, m.timer id⟩

/-- The comparison of two timers of the manager. -/
def before (m : TimerManager) (a b : TimerId) : Bool := comparator (m.ptr a) (m.ptr b)

def setTimer (m : TimerManager) (id : TimerId) (v : Timer) : TimerManager :=
  { m with timer := Function.update m.timer id v }

/-- `new Timer`, at the address `id`. -/
def newTimer (m : TimerManager) (id : TimerId) (v : Timer) : TimerManager :=
  { m.setTimer id v with allocated := Function.update m.allocated id true }

/-- `m_timers.insert`. -/
def insert (m : TimerManager) (id : TimerId) : TimerManager :=
  { m with timers := OrderedSet.insert m.before id m.timers }

/-- `m_timers.erase( m_timers.find( id ) )`, if it is found. -/
def erase (m : TimerManager) (id : TimerId) : Option TimerManager :=
  (OrderedSet.find m.before id m.timers).map fun it => { m with timers := m.timers.erase it }

/-- `addTimer( val, lock )` until the lock is released, and `at_front`. -/
def addTimerLocked (m : TimerManager) (id : TimerId) : TimerManager × Bool :=
  let m := m.insert id
  let atFront := m.timers.head? == some id && !m.tickled
  (if atFront then { m with tickled := true } else m, atFront)

/-- `cancel()`; erasing a timer that is not in the set is not defined. -/
def cancel (m : TimerManager) (id : TimerId) : Option (TimerManager × Bool) :=
  if (m.timer id).cb.isSome then
    ((m.setTimer id { m.timer id with cb := none }).erase id).map fun m => (m, true)
  else some (m, false)

/-- `refresh()`. -/
def refresh (m : TimerManager) (id : TimerId) (now : Nat) : TimerManager × Bool :=
  if (m.timer id).cb.isNone then (m, false)
  else
    match m.erase id with
    | none => (m, false)
    | some m =>
      ((m.setTimer id { m.timer id with next := add64 now (m.timer id).ms }).insert id, true)

/-- The section of `reset( ms, from_now )`: its result, and `at_front`. -/
def resetLocked (m : TimerManager) (id : TimerId) (now ms : Nat) (fromNow : Bool) :
    TimerManager × Bool × Bool :=
  if (m.timer id).cb.isNone then (m, false, false)
  else
    match m.erase id with
    | none => (m, false, false)
    | some m =>
      let v := m.timer id
      let start := if fromNow then now else sub64 v.next v.ms
      let added := (m.setTimer id { v with ms, next := add64 start ms }).addTimerLocked id
      (added.1, true, added.2)

/-- `getNextTimer()`. -/
def getNextTimer (m : TimerManager) (now : Nat) : TimerManager × Nat :=
  let m := { m with tickled := false }
  match m.timers with
  | [] => (m, uint64Max)
  | next :: _ =>
    (m, if (m.timer next).next ≤ now then 0 else (m.timer next).next - now)

/-- `detectClockRollover( now_ms )`. -/
def detectClockRollover (m : TimerManager) (now : Nat) : TimerManager × Bool :=
  ({ m with previouseTime := now },
    decide (now < m.previouseTime ∧ now < sub64 m.previouseTime (60 * 60 * 1000)))

/-- The loop of `listExpiredCb` over the expired timers. -/
def expire (now : Nat) : TimerManager → List TimerId → TimerManager × List (Option CallbackId)
  | m, [] => (m, [])
  | m, id :: rest =>
    let v := m.timer id
    let m :=
      if v.recurring then (m.setTimer id { v with next := add64 now v.ms }).insert id
      else m.setTimer id { v with cb := none }
    let done := expire now m rest
    (done.1, v.cb :: done.2)

/-- The timers that `listExpiredCb` takes off the set, and the others: all of them
after a rollover, else those before `it`.  `addr` is the address of `now_timer`. -/
def splitExpired (m : TimerManager) (now : Nat) (addr : TimerId) (rollover : Bool) :
    List TimerId × List TimerId :=
  if rollover then (m.timers, [])
  else
    let isLower := fun id => comparator (m.ptr id) (some ⟨addr, .at now⟩)
    let isNow := fun id => (m.timer id).next == now
    let lowerBound := m.timers.dropWhile isLower
    (m.timers.takeWhile isLower ++ lowerBound.takeWhile isNow, lowerBound.dropWhile isNow)

/-- The section of `listExpiredCb` under the write lock, and `cbs`; the set must not be
empty. -/
def listExpiredLocked (m : TimerManager) (now : Nat) (addr : TimerId) :
    Option (TimerManager × List (Option CallbackId)) :=
  let rollover := (m.detectClockRollover now).2
  let m := (m.detectClockRollover now).1
  let split := m.splitExpired now addr rollover
  let done := expire now { m with timers := split.2 } split.1
  if rollover then some done
  else
    match m.timers with
    | [] => none
    | front :: _ => some (if now < (m.timer front).next then (m, []) else done)

/-- `hasTimer()`. -/
def hasTimer (m : TimerManager) : Bool := !m.timers.isEmpty

/-! ## The order of the set -/

variable {m m' : TimerManager} {id x : TimerId} {v : Timer} {now : Nat}

/-- What the set is ordered by. -/
def key (m : TimerManager) (id : TimerId) : Nat ×ₗ Nat := toLex ((m.timer id).next, id)

theorem before_iff (a b : TimerId) : m.before a b = true ↔ m.key a < m.key b :=
  comparator_iff ⟨a, m.timer a⟩ ⟨b, m.timer b⟩

theorem key_injective (m : TimerManager) : Function.Injective m.key :=
  fun _ _ h => (Prod.mk.inj (toLex.injective h)).2

theorem next_le_of_key_le {a b : TimerId} (h : m.key a ≤ m.key b) :
    (m.timer a).next ≤ (m.timer b).next := by
  rcases Prod.Lex.toLex_le_toLex.mp h with h | ⟨h, -⟩
  · exact Nat.le_of_lt h
  · exact Nat.le_of_eq h

/-- **The set is in the order of the timers' `m_next`, and its timers exist.** -/
structure Valid (m : TimerManager) : Prop where
  ordered : OrderedSet.Ordered m.key m.timers
  allocated : ∀ id ∈ m.timers, m.allocated id = true

theorem Valid.new (now : Nat) : (new now).Valid where
  ordered := List.Pairwise.nil
  allocated := nofun

/-- An object outside the set is changed. -/
theorem Valid.setTimer (h : m.Valid) (hid : id ∉ m.timers) (v : Timer) :
    (m.setTimer id v).Valid where
  ordered := h.ordered.congr fun x hx => by
    have hne : x ≠ id := fun heq => hid (heq ▸ hx)
    show toLex ((Function.update m.timer id v x).next, x) = _
    rw [Function.update_of_ne hne]
    rfl
  allocated := h.allocated

/-- What is not `m_next` of an object is changed. -/
theorem Valid.setTimer_next (h : m.Valid) (hv : v.next = (m.timer id).next) :
    (m.setTimer id v).Valid where
  ordered := h.ordered.congr fun x _ => by
    show toLex ((Function.update m.timer id v x).next, x) = _
    by_cases hx : x = id
    · subst hx
      rw [Function.update_self, hv]
      rfl
    · rw [Function.update_of_ne hx]
      rfl
  allocated := h.allocated

theorem Valid.newTimer (h : m.Valid) (hid : m.allocated id = false) (v : Timer) :
    (m.newTimer id v).Valid := by
  have hmem : id ∉ m.timers := fun hmem => absurd (h.allocated id hmem) (by rw [hid]; nofun)
  refine ⟨(h.setTimer hmem v).ordered, fun x hx => ?_⟩
  show Function.update m.allocated id true x = true
  have hne : x ≠ id := by
    rintro rfl
    exact hmem hx
  rw [Function.update_of_ne hne]
  exact h.allocated x hx

theorem Valid.insert (h : m.Valid) (hid : m.allocated id = true) : (m.insert id).Valid where
  ordered := h.ordered.insert before_iff id
  allocated x hx := by
    rcases OrderedSet.mem_of_mem_insert hx with rfl | hx
    · exact hid
    · exact h.allocated x hx

/-- What `erase` does, when it finds the timer. -/
theorem erase_eq_some (h : m.erase id = some m') :
    id ∈ m.timers ∧ m' = { m with timers := m.timers.erase id } := by
  obtain ⟨it, hfind, rfl⟩ := Option.map_eq_some_iff.mp h
  have hmem := List.mem_of_find?_eq_some hfind
  have htest := List.find?_some hfind
  simp only [Bool.and_eq_true, Bool.not_eq_true', ← Bool.not_eq_true, before_iff, not_lt] at htest
  have hkey : m.key it = m.key id := le_antisymm htest.2 htest.1
  have heq : it = id := m.key_injective hkey
  rw [← heq]
  exact ⟨hmem, rfl⟩

theorem Valid.erase (h : m.Valid) (he : m.erase id = some m') :
    m'.Valid ∧ id ∉ m'.timers ∧ m'.allocated id = true := by
  obtain ⟨hmem, rfl⟩ := erase_eq_some he
  refine ⟨⟨h.ordered.sublist List.erase_sublist, fun x hx => ?_⟩, ?_, h.allocated id hmem⟩
  · exact h.allocated x (List.mem_of_mem_erase hx)
  · exact fun hid => (h.ordered.nodup.mem_erase_iff.mp hid).1 rfl

theorem Valid.addTimerLocked (h : m.Valid) (hid : m.allocated id = true) :
    (m.addTimerLocked id).1.Valid := by
  have := h.insert hid
  rw [TimerManager.addTimerLocked]
  dsimp only
  split
  · exact ⟨this.ordered, this.allocated⟩
  · exact this

theorem Valid.cancel (h : m.Valid) {res : Bool} (hc : m.cancel id = some (m', res)) :
    m'.Valid := by
  rw [TimerManager.cancel] at hc
  split at hc
  · obtain ⟨m₁, he, heq⟩ := Option.map_eq_some_iff.mp hc
    cases heq
    have hset := h.setTimer_next (v := { m.timer id with cb := none }) rfl
    exact (hset.erase he).1
  · cases hc
    exact h

theorem Valid.resetLocked (h : m.Valid) (now ms : Nat) (fromNow : Bool) :
    (m.resetLocked id now ms fromNow).1.Valid := by
  rw [TimerManager.resetLocked]
  split
  · exact h
  · split
    · exact h
    · rename_i m₁ he
      obtain ⟨hvalid, hmem, halloc⟩ := h.erase he
      exact (hvalid.setTimer hmem _).addTimerLocked halloc

theorem Valid.refresh (h : m.Valid) (now : Nat) : (m.refresh id now).1.Valid := by
  rw [TimerManager.refresh]
  split
  · exact h
  · split
    · exact h
    · rename_i m₁ he
      obtain ⟨hvalid, hmem, halloc⟩ := h.erase he
      exact (hvalid.setTimer hmem _).insert halloc

theorem Valid.getNextTimer (h : m.Valid) (now : Nat) : (m.getNextTimer now).1.Valid := by
  have hm : Valid { m with tickled := false } := ⟨h.ordered, h.allocated⟩
  rw [TimerManager.getNextTimer]
  dsimp only
  split
  · exact hm
  · exact hm

/-- The expired timers are outside the set while the loop re-inserts those that recur. -/
theorem Valid.expire {l : List TimerId} (h : m.Valid) (hnodup : l.Nodup)
    (hout : ∀ id ∈ l, id ∉ m.timers) (halloc : ∀ id ∈ l, m.allocated id = true) :
    (expire now m l).1.Valid := by
  induction l generalizing m with
  | nil => exact h
  | cons id l ih =>
    obtain ⟨hid, hl⟩ := List.nodup_cons.mp hnodup
    have hmem := hout id (List.mem_cons_self ..)
    have hrest : ∀ x ∈ l, x ∉ m.timers := fun x hx => hout x (List.mem_cons_of_mem _ hx)
    have hallocs : ∀ x ∈ l, m.allocated x = true := fun x hx => halloc x (List.mem_cons_of_mem _ hx)
    rw [TimerManager.expire]
    dsimp only
    split
    · refine ih ((h.setTimer hmem _).insert (halloc id (List.mem_cons_self ..))) hl ?_ hallocs
      intro x hx hin
      rcases OrderedSet.mem_of_mem_insert hin with rfl | hin
      · exact hid hx
      · exact hrest x hx hin
    · exact ih (h.setTimer hmem _) hl hrest hallocs

/-- The timers that are taken off are the first of the set. -/
theorem splitExpired_append (m : TimerManager) (now : Nat) (addr : TimerId) (rollover : Bool) :
    (m.splitExpired now addr rollover).1 ++ (m.splitExpired now addr rollover).2 = m.timers := by
  rw [splitExpired]
  cases rollover with
  | true => exact List.append_nil _
  | false =>
    simp only [Bool.false_eq_true, if_false, List.append_assoc, List.takeWhile_append_dropWhile]

theorem Valid.splitExpired (h : m.Valid) (now : Nat) (addr : TimerId) (rollover : Bool) :
    (TimerManager.expire now { m with timers := (m.splitExpired now addr rollover).2 }
      (m.splitExpired now addr rollover).1).1.Valid := by
  have happ := splitExpired_append m now addr rollover
  generalize m.splitExpired now addr rollover = p at happ
  have hnodup : (p.1 ++ p.2).Nodup := by
    rw [happ]
    exact h.ordered.nodup
  obtain ⟨hexpired, -, hdisjoint⟩ := List.nodup_append.mp hnodup
  refine Valid.expire ⟨h.ordered.sublist ?_, fun x hx => h.allocated x ?_⟩ hexpired ?_ ?_
  · rw [← happ]
    exact List.sublist_append_right ..
  · rw [← happ]
    exact List.mem_append_right _ hx
  · exact fun x hx hin => hdisjoint x hx x hin rfl
  · intro x hx
    refine h.allocated x ?_
    rw [← happ]
    exact List.mem_append_left _ hx

theorem Valid.listExpiredLocked (h : m.Valid) {addr : TimerId} {cbs : List (Option CallbackId)}
    (hl : m.listExpiredLocked now addr = some (m', cbs)) : m'.Valid := by
  have hm : Valid (m.detectClockRollover now).1 := ⟨h.ordered, h.allocated⟩
  have hdone := hm.splitExpired now addr (m.detectClockRollover now).2
  unfold TimerManager.listExpiredLocked at hl
  dsimp only at hl
  split at hl
  · rw [Option.some.inj hl] at hdone
    exact hdone
  · split at hl
    · cases hl
    · split at hl
      · cases hl
        exact hm
      · rw [Option.some.inj hl] at hdone
        exact hdone

/-! ## What becomes of a timer -/

theorem mem_addTimerLocked (m : TimerManager) (id : TimerId) :
    id ∈ (m.addTimerLocked id).1.timers := by
  rw [TimerManager.addTimerLocked]
  dsimp only
  split <;> exact OrderedSet.mem_insert_self before_iff m.key_injective id m.timers

theorem timer_addTimerLocked (m : TimerManager) (id : TimerId) :
    (m.addTimerLocked id).1.timer = m.timer := by
  rw [TimerManager.addTimerLocked]
  dsimp only
  split <;> rfl

/-- The loop over the expired timers takes their callbacks, and leaves the others. -/
theorem expire_spec {l : List TimerId} (hnodup : l.Nodup) :
    (∀ id ∈ l, (m.timer id).cb ∈ (expire now m l).2) ∧
      ∀ id ∈ m.timers, id ∉ l →
        id ∈ (expire now m l).1.timers ∧ (expire now m l).1.timer id = m.timer id := by
  induction l generalizing m with
  | nil => exact ⟨nofun, fun id hid _ => ⟨hid, rfl⟩⟩
  | cons e l ih =>
    obtain ⟨he, hl⟩ := List.nodup_cons.mp hnodup
    rw [TimerManager.expire]
    dsimp only
    generalize hm : (if (m.timer e).recurring then
        (m.setTimer e { m.timer e with next := add64 now (m.timer e).ms }).insert e
      else m.setTimer e { m.timer e with cb := none }) = m₁
    -- the others are as they were
    have htimer : ∀ id, id ≠ e → m₁.timer id = m.timer id := by
      intro id hne
      rw [← hm]
      split_ifs
      · exact Function.update_of_ne hne ..
      · exact Function.update_of_ne hne ..
    have hmem : ∀ id ∈ m.timers, id ∈ m₁.timers := by
      intro id hid
      rw [← hm]
      split_ifs
      · exact OrderedSet.mem_insert_of_mem hid
      · exact hid
    obtain ⟨htaken, hleft⟩ := @ih m₁ hl
    constructor
    · intro id hid
      rcases List.mem_cons.mp hid with rfl | hid
      · exact List.mem_cons_self ..
      · have hne : id ≠ e := fun heq => he (heq ▸ hid)
        rw [← htimer id hne]
        exact List.mem_cons_of_mem _ (htaken id hid)
    · intro id hid hout
      have hne : id ≠ e := fun heq => hout (heq ▸ List.mem_cons_self ..)
      obtain ⟨hin, heq⟩ := hleft id (hmem id hid) fun h => hout (List.mem_cons_of_mem _ h)
      exact ⟨hin, heq.trans (htimer id hne)⟩

/-- **A timer stays, or its callback is among those that `listExpiredCb` collects.** -/
theorem listExpiredLocked_spec (h : m.Valid) {addr : TimerId} {cbs : List (Option CallbackId)}
    (hl : m.listExpiredLocked now addr = some (m', cbs)) (hid : id ∈ m.timers) :
    (id ∈ m'.timers ∧ m'.timer id = m.timer id) ∨ (m.timer id).cb ∈ cbs := by
  generalize hr : (m.detectClockRollover now).2 = rollover
  generalize hm : (m.detectClockRollover now).1 = m₁
  have htimers : m₁.timers = m.timers := by rw [← hm]; rfl
  have htimer : m₁.timer = m.timer := by rw [← hm]; rfl
  have happ := splitExpired_append m₁ now addr rollover
  generalize hp : m₁.splitExpired now addr rollover = split at happ
  have hdone : ∀ r, expire now { m₁ with timers := split.2 } split.1 = r →
      (id ∈ r.1.timers ∧ r.1.timer id = m.timer id) ∨ (m.timer id).cb ∈ r.2 := by
    rintro r rfl
    have hnodup : (split.1 ++ split.2).Nodup := by
      rw [happ, htimers]
      exact h.ordered.nodup
    have hspec := @expire_spec { m₁ with timers := split.2 } now split.1
      (List.nodup_append.mp hnodup).1
    rw [← htimer]
    by_cases hexp : id ∈ split.1
    · exact Or.inr (hspec.1 id hexp)
    · refine Or.inl (hspec.2 id ?_ hexp)
      rw [← htimers, ← happ] at hid
      exact (List.mem_append.mp hid).resolve_left hexp
  unfold TimerManager.listExpiredLocked at hl
  dsimp only at hl
  rw [hr, hm, hp] at hl
  split at hl
  · exact hdone _ (Option.some.inj hl)
  · split at hl
    · cases hl
    · split at hl
      · cases hl
        exact Or.inl ⟨htimers ▸ hid, by rw [htimer]⟩
      · exact hdone _ (Option.some.inj hl)

/-! ## The earliest deadline -/

/-- No timer is due before the time `b`. -/
def NoneBefore (m : TimerManager) (b : Nat) : Prop := ∀ id ∈ m.timers, b ≤ (m.timer id).next

theorem NoneBefore.mono {b b' : Nat} (h : m.NoneBefore b) (hle : b' ≤ b) : m.NoneBefore b' :=
  fun id hid => Nat.le_trans hle (h id hid)

theorem getNextTimer_tickled (m : TimerManager) (now : Nat) :
    (m.getNextTimer now).1.tickled = false := by
  rw [getNextTimer]
  dsimp only
  split <;> rfl

theorem noneBefore_getNextTimer {b : Nat} :
    (m.getNextTimer now).1.NoneBefore b ↔ m.NoneBefore b := by
  rw [getNextTimer]
  dsimp only
  split <;> rfl

/-- **The timeout of `getNextTimer` does not pass a deadline.** -/
theorem getNextTimer_noneBefore (h : m.Valid) (now : Nat) :
    (m.getNextTimer now).2 = 0 ∨
      (m.getNextTimer now).1.NoneBefore (now + (m.getNextTimer now).2) := by
  obtain ⟨timers, timer, allocated, tickled, previouseTime⟩ := m
  cases timers with
  | nil => exact Or.inr nofun
  | cons front rest =>
    show (if (timer front).next ≤ now then 0 else (timer front).next - now) = 0 ∨
      NoneBefore _ (now + if (timer front).next ≤ now then 0 else (timer front).next - now)
    split_ifs with hdue
    · exact Or.inl rfl
    · refine Or.inr fun id hid => ?_
      have hle := next_le_of_key_le (h.ordered.head_le id hid)
      have hle : (timer front).next ≤ (timer id).next := hle
      show _ ≤ (timer id).next
      omega

/-- A timer that is not put in front, or not announced because `m_tickled` is set,
leaves the flag; if the flag was unset, the earliest deadline is still there. -/
theorem addTimerLocked_spec (m : TimerManager) (id : TimerId) :
    ((m.addTimerLocked id).2 = true) ∨
      ((m.addTimerLocked id).2 = false ∧ (m.addTimerLocked id).1.tickled = m.tickled ∧
        (m.tickled = true ∨ ∀ b, m.NoneBefore b → (m.addTimerLocked id).1.NoneBefore b)) := by
  by_cases hfront : (m.addTimerLocked id).2 = true
  · exact Or.inl hfront
  have hfalse : ((m.insert id).timers.head? == some id && !m.tickled) = false :=
    Bool.eq_false_of_not_eq_true hfront
  have heq : m.addTimerLocked id = (m.insert id, false) := by
    unfold TimerManager.addTimerLocked
    dsimp only
    rw [show (m.insert id).tickled = m.tickled from rfl, hfalse]
    rfl
  rw [heq]
  refine Or.inr ⟨rfl, rfl, ?_⟩
  cases htickled : m.tickled with
  | true => exact Or.inl rfl
  | false =>
    right
    rw [htickled, Bool.not_false, Bool.and_true] at hfalse
    -- the new timer is behind the front, so its deadline is no earlier
    rcases OrderedSet.head_insert before_iff id m.timers with hhead | ⟨x, hx, -, hle⟩
    · rw [show (m.insert id).timers.head? = some id from hhead] at hfalse
      exact absurd hfalse (by simp)
    · intro b hb y hy
      rcases OrderedSet.mem_of_mem_insert hy with rfl | hy
      · exact Nat.le_trans (hb x (List.mem_of_mem_head? hx)) (next_le_of_key_le hle)
      · exact hb y hy

theorem NoneBefore.erase {b : Nat} (h : m.NoneBefore b) (he : m.erase id = some m') :
    m'.NoneBefore b := by
  obtain ⟨-, rfl⟩ := erase_eq_some he
  exact fun x hx => h x (List.mem_of_mem_erase hx)

theorem NoneBefore.setTimer {b : Nat} (h : m.NoneBefore b) (hid : id ∉ m.timers) (v : Timer) :
    (m.setTimer id v).NoneBefore b := by
  intro x hx
  have hne : x ≠ id := fun heq => hid (heq ▸ hx)
  show b ≤ (Function.update m.timer id v x).next
  rw [Function.update_of_ne hne]
  exact h x hx

theorem cancel_spec {res : Bool} (hc : m.cancel id = some (m', res)) :
    m'.tickled = m.tickled ∧ ∀ b, m.NoneBefore b → m'.NoneBefore b := by
  rw [TimerManager.cancel] at hc
  split at hc
  · obtain ⟨m₁, he, heq⟩ := Option.map_eq_some_iff.mp hc
    cases heq
    refine ⟨?_, fun b hb => NoneBefore.erase (fun x hx => ?_) he⟩
    · obtain ⟨-, rfl⟩ := erase_eq_some he
      rfl
    · show b ≤ (Function.update m.timer id _ x).next
      by_cases hx' : x = id
      · subst hx'
        rw [Function.update_self]
        exact hb x hx
      · rw [Function.update_of_ne hx']
        exact hb x hx
  · cases hc
    exact ⟨rfl, fun b hb => hb⟩

/-- `reset` inserts as `addTimer` does, or changes nothing. -/
theorem resetLocked_spec (h : m.Valid) (now ms : Nat) (fromNow : Bool) :
    ((m.resetLocked id now ms fromNow).2.2 = true) ∨
      ((m.resetLocked id now ms fromNow).2.2 = false ∧
        (m.resetLocked id now ms fromNow).1.tickled = m.tickled ∧
        (m.tickled = true ∨
          ∀ b, m.NoneBefore b → (m.resetLocked id now ms fromNow).1.NoneBefore b)) := by
  have hsame : false = false ∧ m.tickled = m.tickled ∧
      (m.tickled = true ∨ ∀ b, m.NoneBefore b → m.NoneBefore b) :=
    ⟨rfl, rfl, Or.inr fun _ hb => hb⟩
  rw [TimerManager.resetLocked]
  split
  · exact Or.inr hsame
  · split
    · exact Or.inr hsame
    · rename_i m₁ he
      dsimp only
      obtain ⟨-, hmem, -⟩ := h.erase he
      have htickled : m₁.tickled = m.tickled := by
        obtain ⟨-, rfl⟩ := erase_eq_some he
        rfl
      generalize { m₁.timer id with
        ms
        next := add64 (if fromNow then now else sub64 (m₁.timer id).next (m₁.timer id).ms) ms } = v
      refine (addTimerLocked_spec (m₁.setTimer id v) id).imp (fun h => h) ?_
      rintro ⟨hfalse, hkeep, hcase⟩
      refine ⟨hfalse, hkeep.trans htickled, hcase.imp (fun ht => htickled ▸ ht) ?_⟩
      exact fun hb b hm => hb b ((hm.erase he).setTimer hmem v)

end TimerManager
end Sylar
