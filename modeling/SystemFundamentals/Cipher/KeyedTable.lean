import SystemFundamentals.Cipher.Tables
import Mathlib.Data.List.Nodup
import Mathlib.Data.List.Perm.Subperm
import Mathlib.Data.List.Count
import Mathlib.Algebra.Order.Group.Nat
import Mathlib.Algebra.Order.Ring.Nat

/-!
# Keyed alphabets

Both ciphers fill a zeroed table with the key and then copy the alphabet behind
it letter by letter, moving the write position back by one after a letter that
the key has already.  This file describes the table after any number of copied
letters.

Main results:

- Theorem {lit}`tableAfter_succ`: one turn of the copying loop.
- Theorem {lit}`length_keyedPrefix`: the write position of the loop is the end
  of the letters collected so far.
-/

namespace SystemFundamentals.Cipher

/-- A key without repeats over the alphabet. -/
structure ValidKey (alphabet key : List UInt8) : Prop where
  nodup : key.Nodup
  subset : key ⊆ alphabet

/-- {lit}`*(alphabet+m)`.  Past the alphabet this is its terminator, also where
the source reads beyond it and ignores what it finds. -/
def letterAt (alphabet : List UInt8) (m : Nat) : UInt8 :=
  alphabet.getD m 0

/-- The key, then those of the first {lit}`m` alphabet letters that are not in
it. -/
def keyedPrefix (alphabet key : List UInt8) (m : Nat) : List UInt8 :=
  key ++ (alphabet.take m).filter (· ∉ key)

/-- The letter the loop leaves behind the prefix: the one it copied last, when
the key has it already and the next turn would overwrite it. -/
def lastCopied (alphabet key : List UInt8) : Nat → Option UInt8
  | 0 => none
  | m + 1 =>
      if letterAt alphabet m ∈ key then some (letterAt alphabet m) else none

/-- A table of {lit}`size` bytes after {lit}`m` letters have been copied. -/
def tableAfter (size : Nat) (alphabet key : List UInt8) (m : Nat) : List UInt8 :=
  keyedPrefix alphabet key m ++ ((lastCopied alphabet key m).toList ++
    List.replicate (size - (keyedPrefix alphabet key m).length -
      (lastCopied alphabet key m).toList.length) 0)

/-- How far the write position has moved back after {lit}`m` letters. -/
def repeats (alphabet key : List UInt8) (m : Nat) : Nat :=
  (alphabet.take m).countP (· ∈ key)

variable {alphabet key : List UInt8}

/-- Below its length the alphabet is read where it is. -/
theorem letterAt_eq_getElem {m : Nat} (hm : m < alphabet.length) :
    letterAt alphabet m = alphabet[m] := by
  simp [letterAt, hm]

theorem take_succ_eq_append_letterAt {m : Nat} (hm : m < alphabet.length) :
    alphabet.take (m + 1) = alphabet.take m ++ [letterAt alphabet m] := by
  rw [List.take_succ_eq_append_getElem hm, letterAt_eq_getElem hm]

/-- A table that holds only the key. -/
theorem tableAfter_zero (size : Nat) (alphabet key : List UInt8) :
    tableAfter size alphabet key 0 = key ++ (List.replicate size 0).drop key.length := by
  simp only [tableAfter, keyedPrefix, lastCopied, List.take_zero, List.filter_nil,
    List.append_nil, Option.toList_none, List.nil_append, List.drop_replicate,
    List.length_nil, Nat.sub_zero]

theorem keyedPrefix_nodup (halphabet : alphabet.Nodup) (hkey : ValidKey alphabet key)
    (m : Nat) : (keyedPrefix alphabet key m).Nodup := by
  apply List.Nodup.append hkey.nodup
  · exact (halphabet.sublist (List.take_sublist _ _)).filter _
  · intro c hc hc'
    have hnot := (List.mem_filter.mp hc').2
    simp [hc] at hnot

theorem keyedPrefix_subset (hkey : ValidKey alphabet key) (m : Nat) :
    keyedPrefix alphabet key m ⊆ alphabet := by
  intro c hc
  rcases List.mem_append.mp hc with h | h
  · exact hkey.subset h
  · exact List.mem_of_mem_take (List.mem_filter.mp h).1

theorem length_keyedPrefix_le (halphabet : alphabet.Nodup) (hkey : ValidKey alphabet key)
    (m : Nat) : (keyedPrefix alphabet key m).length ≤ alphabet.length :=
  ((keyedPrefix_nodup halphabet hkey m).subperm (keyedPrefix_subset hkey m)).length_le

/-- After the whole alphabet the prefix holds every letter. -/
theorem mem_keyedPrefix_length {c : UInt8} (hc : c ∈ alphabet) :
    c ∈ keyedPrefix alphabet key alphabet.length := by
  unfold keyedPrefix
  by_cases hkey : c ∈ key
  · simp [hkey]
  · simp [hkey, hc]

/-- The key and the remaining letters are as many as the alphabet has. -/
theorem length_keyedPrefix_length (halphabet : alphabet.Nodup) (hkey : ValidKey alphabet key) :
    (keyedPrefix alphabet key alphabet.length).length = alphabet.length := by
  apply le_antisymm (length_keyedPrefix_le halphabet hkey _)
  have hsub : alphabet ⊆ keyedPrefix alphabet key alphabet.length :=
    fun c hc => mem_keyedPrefix_length hc
  exact (halphabet.subperm hsub).length_le

/-- The write position of the loop is the end of the prefix. -/
theorem length_keyedPrefix (alphabet key : List UInt8) {m : Nat} (hm : m ≤ alphabet.length) :
    ((keyedPrefix alphabet key m).length : Int) =
      (key.length + m : Nat) + -(repeats alphabet key m : Int) := by
  have hsplit := List.length_eq_countP_add_countP (· ∈ key) (l := alphabet.take m)
  have htake : (alphabet.take m).length = m := by
    rw [List.length_take, Nat.min_eq_left hm]
  have hfilter : ((alphabet.take m).filter (· ∉ key)).length =
      (alphabet.take m).countP (fun c => ¬ decide (c ∈ key) = true) := by
    rw [List.countP_eq_length_filter]
    simp
  rw [keyedPrefix, List.length_append, hfilter, repeats]
  omega

/-- The write position moves back after a letter of the key. -/
theorem repeats_succ (hkey : ValidKey alphabet key) {m : Nat} (hm : m < alphabet.length) :
    -(repeats alphabet key m : Int) - key.count (letterAt alphabet m) =
      -(repeats alphabet key (m + 1) : Int) := by
  rw [repeats, repeats, take_succ_eq_append_letterAt hm, List.countP_append,
    hkey.nodup.count]
  by_cases hin : letterAt alphabet m ∈ key
  · simp [hin]
    omega
  · simp [hin]

/-- Writing one letter at the end of the prefix. -/
theorem tableAfter_set {size : Nat} {m : Nat}
    (hsize : (keyedPrefix alphabet key m).length < size) (c : UInt8) :
    (tableAfter size alphabet key m).set (keyedPrefix alphabet key m).length c =
      keyedPrefix alphabet key m ++
        c :: List.replicate (size - 1 - (keyedPrefix alphabet key m).length) 0 := by
  rw [tableAfter, List.set_append_right _ _ (le_refl _), Nat.sub_self]
  congr 1
  cases lastCopied alphabet key m with
  | none =>
      obtain ⟨n, hn⟩ : ∃ n, size - (keyedPrefix alphabet key m).length = n + 1 :=
        ⟨size - 1 - (keyedPrefix alphabet key m).length, by omega⟩
      have hn' : size - 1 - (keyedPrefix alphabet key m).length = n := by omega
      simp [hn, hn', List.replicate_succ]
  | some d =>
      have hn : size - (keyedPrefix alphabet key m).length - 1 =
          size - 1 - (keyedPrefix alphabet key m).length := by
        omega
      simp [hn]

/-- The next alphabet letter joins the prefix or is left behind it. -/
theorem tableAfter_succ {size : Nat} {m : Nat} (hm : m < alphabet.length)
    (hsize : (keyedPrefix alphabet key m).length < size) :
    tableAfter size alphabet key (m + 1) =
      (tableAfter size alphabet key m).set (keyedPrefix alphabet key m).length
        (letterAt alphabet m) := by
  have htake := take_succ_eq_append_letterAt hm
  rw [tableAfter_set hsize]
  by_cases hin : letterAt alphabet m ∈ key
  · have hpre : keyedPrefix alphabet key (m + 1) = keyedPrefix alphabet key m := by
      rw [keyedPrefix, htake, List.filter_append]
      simp [hin, keyedPrefix]
    have hn : size - (keyedPrefix alphabet key m).length - 1 =
        size - 1 - (keyedPrefix alphabet key m).length := by
      omega
    rw [tableAfter, hpre, lastCopied, if_pos hin]
    simp [hn]
  · have hpre : keyedPrefix alphabet key (m + 1) =
        keyedPrefix alphabet key m ++ [letterAt alphabet m] := by
      rw [keyedPrefix, htake, List.filter_append]
      simp [hin, keyedPrefix]
    have hn : size - ((keyedPrefix alphabet key m).length + 1) =
        size - 1 - (keyedPrefix alphabet key m).length := by
      omega
    rw [tableAfter, hpre, lastCopied, if_neg hin]
    simp [hn]

end SystemFundamentals.Cipher
