import Sylar.Address
import Sylar.GroupText

/-! # The text of an IPv6 address

`IPv6Address::insert` leaves out the first zeros that it meets, and writes a second colon where
it meets the first group behind them; zeros at the very end are written after the loop.

**`ipv6_text`**: the text is eight groups with at most one gap, and read as such it is the
address. -/
namespace Sylar
open GroupText

namespace IPv6Address

/-- The words of the address, `(uint16_t*)m_addr.sin6_addr.s6_addr`. -/
def words (a : IPv6Address) : List (BitVec 16) :=
  (List.finRange 8).map fun i : Fin 8 => ofHostBytes 16
    [UInt8.ofBitVec (a.s6_addr ⟨2 * i, by omega⟩), UInt8.ofBitVec (a.s6_addr ⟨2 * i + 1, by omega⟩)]

/-- What is inserted for a word, as a number. -/
def number (word : BitVec 16) : Nat := (byteswapOnLittleEndian word).toNat

/-- The loop of `insert` from a word on: what it inserts, and `used_zeros` behind it.  `prev` is
the word before, if there is one. -/
def insertLoop : Option (BitVec 16) → List (BitVec 16) → Bool → List Char × Bool
  | _, [], usedZeros => ([], usedZeros)
  | prev, word :: rest, usedZeros =>
    if word = 0 ∧ usedZeros = false then insertLoop (some word) rest usedZeros
    else if prev = some 0 ∧ usedZeros = false then
      let (os, used) := insertLoop (some word) rest true
      (':' :: ':' :: Nat.toDigits 16 (number word) ++ os, used)
    else
      let (os, used) := insertLoop (some word) rest usedZeros
      ((if prev = none then [] else [':']) ++ Nat.toDigits 16 (number word) ++ os, used)

/-- What `insert` writes between the brackets. -/
def hostText (a : IPv6Address) : List Char :=
  let (os, used) := insertLoop none a.words false
  if used = false ∧ a.words[7]? = some 0 then os ++ [':', ':'] else os

/-- `insert` -/
def insert (a : IPv6Address) : List Char :=
  '[' :: a.hostText ++ ']' :: ':' :: Nat.toDigits 10 (byteswapOnLittleEndian a.sin6_port).toNat

/-- The groups of an address, in network order. -/
def groups (a : IPv6Address) : List Nat :=
  (List.finRange 8).map fun i : Fin 8 =>
    256 * (a.s6_addr ⟨2 * i, by omega⟩).toNat + (a.s6_addr ⟨2 * i + 1, by omega⟩).toNat

/-! ## The loop -/

theorem number_lt (word : BitVec 16) : number word < 2 ^ 16 := BitVec.isLt _

theorem number_zero : number 0 = 0 := by decide

/-- After the gap every word is written. -/
theorem insertLoop_used (prev : BitVec 16) (ws : List (BitVec 16)) :
    insertLoop (some prev) ws true = (joinBehind (ws.map number), true) := by
  induction ws generalizing prev with
  | nil => rfl
  | cons word rest ih =>
    rw [insertLoop, if_neg (by simp), if_neg (by simp), ih]
    rfl

/-- In the gap it is looked for the end of the zeros. -/
theorem insertLoop_gap (ws : List (BitVec 16)) :
    ∃ k post, ws = List.replicate k 0 ++ post ∧
      insertLoop (some 0) ws false =
        if post = [] then ([], false) else (':' :: ':' :: join (post.map number), true) := by
  induction ws with
  | nil => exact ⟨0, [], rfl, rfl⟩
  | cons word rest ih =>
    by_cases hzero : word = 0
    · obtain ⟨k, post, rfl, hloop⟩ := ih
      subst hzero
      refine ⟨k + 1, post, rfl, ?_⟩
      rw [insertLoop, if_pos ⟨rfl, rfl⟩, hloop]
    · refine ⟨0, word :: rest, rfl, ?_⟩
      rw [insertLoop, if_neg (fun h => hzero h.1), if_pos ⟨rfl, rfl⟩, insertLoop_used,
        if_neg (by simp), List.map_cons, join_cons]
      rfl

/-- What comes out of the loop on some words, where `text` is what is written of those before the
gap: there is none, or it is at the end, or there are words behind it. -/
inductive Written (text : List (BitVec 16) → List Char) (ws : List (BitVec 16)) :
    List Char × Bool → Prop
  | noGap : (∀ word ∈ ws, word ≠ 0) → Written text ws (text ws, false)
  | atEnd (pre : List (BitVec 16)) (k : Nat) : ws = pre ++ List.replicate (k + 1) 0 →
    Written text ws (text pre, false)
  | inside (pre : List (BitVec 16)) (k : Nat) (post : List (BitVec 16)) :
    ws = pre ++ List.replicate (k + 1) 0 ++ post → post ≠ [] →
    Written text ws (text pre ++ ':' :: ':' :: join (post.map number), true)

theorem Written.cons {text text' : List (BitVec 16) → List Char} {ws : List (BitVec 16)}
    {out : List Char × Bool} {word : BitVec 16} {front : List Char} (h : Written text ws out)
    (hword : word ≠ 0) (hfront : ∀ pre, text' (word :: pre) = front ++ text pre) :
    Written text' (word :: ws) (front ++ out.1, out.2) := by
  cases h with
  | noGap hws =>
    rw [← hfront]
    refine .noGap fun w hw => ?_
    rcases List.mem_cons.mp hw with rfl | hw
    · exact hword
    · exact hws w hw
  | atEnd pre k hws =>
    rw [← hfront]
    exact .atEnd (word :: pre) k (congrArg _ hws)
  | inside pre k post hws hpost =>
    rw [← List.append_assoc, ← hfront]
    exact .inside (word :: pre) k post (congrArg _ hws) hpost

theorem written_gap {text : List (BitVec 16) → List Char} (htext : text [] = [])
    (prev : Option (BitVec 16)) (ws : List (BitVec 16)) :
    Written text (0 :: ws) (insertLoop prev (0 :: ws) false) := by
  obtain ⟨k, post, rfl, hloop⟩ := insertLoop_gap ws
  rw [insertLoop, if_pos ⟨rfl, rfl⟩, hloop]
  split
  case isTrue hpost =>
    rw [hpost, List.append_nil, ← htext]
    exact .atEnd [] k rfl
  case isFalse hpost =>
    have hwritten : Written text (0 :: (List.replicate k 0 ++ post))
        (text [] ++ ':' :: ':' :: join (post.map number), true) := .inside [] k post rfl hpost
    rwa [htext, List.nil_append] at hwritten

/-- Behind a word that is written, each other one is with its colon. -/
theorem written_behind {prev : BitVec 16} (hprev : prev ≠ 0) (ws : List (BitVec 16)) :
    Written (fun pre => joinBehind (pre.map number)) ws (insertLoop (some prev) ws false) := by
  induction ws generalizing prev with
  | nil => exact .noGap (by simp)
  | cons word rest ih =>
    by_cases hzero : word = 0
    · subst hzero
      exact written_gap rfl _ rest
    · rw [insertLoop, if_neg (fun h => hzero h.1),
        if_neg (fun h => hprev (Option.some.inj h.1)), if_neg (by simp)]
      exact (ih hzero).cons hzero fun pre => rfl

/-- The loop from the beginning on. -/
theorem written_loop (ws : List (BitVec 16)) :
    Written (fun pre => join (pre.map number)) ws (insertLoop none ws false) := by
  cases ws with
  | nil => exact .noGap (by simp)
  | cons word rest =>
    by_cases hzero : word = 0
    · subst hzero
      exact written_gap rfl _ rest
    · rw [insertLoop, if_neg (fun h => hzero h.1), if_neg (by simp), if_pos rfl]
      exact (written_behind hzero rest).cons hzero fun pre => join_cons _ _

/-! ## The text -/

theorem length_words (a : IPv6Address) : a.words.length = 8 := by
  rw [words, List.length_map, List.length_finRange]

/-- The text is that of all groups, or of those on the two sides of some zeros. -/
theorem hostText_cases (a : IPv6Address) :
    a.hostText = join (a.words.map number) ∨
      ∃ pre k post, a.words = pre ++ List.replicate (k + 1) 0 ++ post ∧
        a.hostText = join (pre.map number) ++ ':' :: ':' :: join (post.map number) := by
  have hlen := length_words a
  have hwritten := written_loop a.words
  rw [hostText]
  generalize insertLoop none a.words false = out at hwritten ⊢
  cases hwritten with
  | noGap hws =>
    refine Or.inl (if_neg ?_)
    rintro ⟨-, hlast⟩
    exact hws 0 (List.mem_of_getElem? hlast) rfl
  | atEnd pre k hws =>
    refine Or.inr ⟨pre, k, [], by rw [hws, List.append_nil], if_pos ⟨rfl, ?_⟩⟩
    have hpre : pre.length + (k + 1) = 8 := by
      rw [hws, List.length_append, List.length_replicate] at hlen
      exact hlen
    rw [hws, List.getElem?_append_right (by omega), List.getElem?_replicate, if_pos (by omega)]
  | inside pre k post hws hpost =>
    exact Or.inr ⟨pre, k, post, hws, if_neg (by simp)⟩

theorem toNat_ofHostBytes_pair (low high : BitVec 8) :
    (ofHostBytes 16 [UInt8.ofBitVec low, UInt8.ofBitVec high]).toNat =
      256 * high.toNat + low.toNat := by
  have hlow := low.isLt
  have hhigh := high.isLt
  have hinner : ofHostBytes 16 [UInt8.ofBitVec high] = high.setWidth 16 := by
    rw [ofHostBytes, ofHostBytes]
    exact BitVec.zero_or
  have hwide : (high.setWidth 16 <<< 8).toNat = high.toNat <<< 8 := by
    rw [BitVec.toNat_shiftLeft, BitVec.toNat_setWidth_of_le (by decide), Nat.shiftLeft_eq]
    omega
  rw [ofHostBytes, hinner, BitVec.toNat_or, hwide, BitVec.toNat_setWidth_of_le (by decide),
    ← Nat.shiftLeft_add_eq_or_of_lt hlow, Nat.shiftLeft_eq]
  omega

theorem number_pair (high low : BitVec 8) :
    number (ofHostBytes 16 [UInt8.ofBitVec high, UInt8.ofBitVec low]) =
      256 * high.toNat + low.toNat := by
  have hswap : byteswap (ofHostBytes 16 [UInt8.ofBitVec high, UInt8.ofBitVec low]) =
      ofHostBytes 16 [UInt8.ofBitVec low, UInt8.ofBitVec high] := byteswap_ofHostBytes rfl
  exact (congrArg BitVec.toNat hswap).trans (toNat_ofHostBytes_pair low high)

/-- The words are inserted in network order. -/
theorem map_number_words (a : IPv6Address) : a.words.map number = a.groups := by
  rw [words, groups, List.map_map]
  exact List.map_congr_left fun i _ => number_pair _ _

theorem lt_of_mem_map_number {ws : List (BitVec 16)} : ∀ g ∈ ws.map number, g < 2 ^ 16 := by
  intro g hg
  obtain ⟨word, -, rfl⟩ := List.mem_map.mp hg
  exact number_lt word

/-- Read as groups, the text is the address. -/
theorem expand_hostText (a : IPv6Address) : expand 8 a.hostText = some a.groups := by
  have hlen := length_words a
  rw [← map_number_words]
  rcases hostText_cases a with htext | ⟨pre, k, post, hwords, htext⟩
  · rw [htext, expand_join lt_of_mem_map_number (by rw [List.length_map, hlen])]
  · rw [hwords, List.length_append, List.length_append, List.length_replicate] at hlen
    rw [htext, expand_gap lt_of_mem_map_number lt_of_mem_map_number
      (by rw [List.length_map, List.length_map]; omega), hwords, List.map_append, List.map_append,
      List.map_replicate, number_zero, List.length_map, List.length_map,
      (by omega : 8 - (pre.length + post.length) = k + 1)]

/-- There is no second gap. -/
theorem isGap_hostText {a : IPv6Address} {i j : Nat} (hi : IsGap a.hostText i)
    (hj : IsGap a.hostText j) : i = j := by
  rcases hostText_cases a with htext | ⟨pre, k, post, -, htext⟩
  · rw [htext] at hi
    exact absurd hi ((plain_join _).not_isGap i)
  · rw [htext] at hi hj
    rw [isGap_append (plain_join _) (plain_join _) hi,
      isGap_append (plain_join _) (plain_join _) hj]

theorem s6_addr_of_groups {a b : IPv6Address} (h : a.groups = b.groups) :
    a.s6_addr = b.s6_addr := by
  funext byte
  have hgroup := List.map_inj_left.mp h ⟨byte / 2, by omega⟩ (List.mem_finRange _)
  dsimp only at hgroup
  have hlow := (a.s6_addr ⟨2 * (byte / 2) + 1, by omega⟩).isLt
  have hlow' := (b.s6_addr ⟨2 * (byte / 2) + 1, by omega⟩).isLt
  refine BitVec.eq_of_toNat_eq ?_
  rcases Nat.mod_two_eq_zero_or_one byte with heven | hodd
  · have hbyte : byte = ⟨2 * (byte / 2), by omega⟩ := Fin.ext (by dsimp only; omega)
    rw [hbyte]
    omega
  · have hbyte : byte = ⟨2 * (byte / 2) + 1, by omega⟩ := Fin.ext (by dsimp only; omega)
    rw [hbyte]
    omega

/-- **The text of an address is eight groups with one gap at most, which read as the address**; so
no other address has it. -/
theorem ipv6_text :
    (∀ a : IPv6Address, expand 8 a.hostText = some a.groups ∧ a.groups.length = 8 ∧
      (∀ i j, IsGap a.hostText i → IsGap a.hostText j → i = j) ∧
      a.insert = '[' :: a.hostText ++ ']' :: ':' ::
        Nat.toDigits 10 (byteswapOnLittleEndian a.sin6_port).toNat) ∧
    ∀ a b : IPv6Address, a.s6_addr ≠ b.s6_addr → a.hostText ≠ b.hostText := by
  refine ⟨fun a => ⟨expand_hostText a, ?_, fun i j => isGap_hostText, rfl⟩, fun a b hne heq => ?_⟩
  · rw [groups, List.length_map, List.length_finRange]
  · have hgroups := expand_hostText a
    rw [heq, expand_hostText b] at hgroups
    exact hne (s6_addr_of_groups (Option.some.inj hgroups.symm))

/-- Two addresses that differ in the last byte. -/
theorem ipv6_text_loopback :
    hostText blank ≠ hostText { blank with s6_addr := Function.update blank.s6_addr 15 1 } :=
  ipv6_text.2 _ _ fun h => absurd (congrFun h 15) (by decide)

end IPv6Address

end Sylar
