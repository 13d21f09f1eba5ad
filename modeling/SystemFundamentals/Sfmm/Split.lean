import SystemFundamentals.Sfmm.Abort
import SystemFundamentals.Sfmm.FreeContract
import SystemFundamentals.Sfmm.RunContract

/-!
# Splitting a block

{lit}`sf_malloc` splits the block it has chosen, and {lit}`sf_realloc` splits a block that
shrinks, each with code of its own.  Both compute the same sizes, and the tags they write pass
the checks of {lit}`sf_free` and {lit}`sf_realloc`.

When {lit}`sf_realloc` moves a block, it frees it behind a call of {lit}`sf_malloc`, and that
call can write over the tags by way of the words a freed payload has left.  Then
{lit}`sf_realloc` aborts on a block whose tags were as written.

Main results:

- Theorem {lit}`exists_splitOf`: the sizes that a split computes.
- Theorem {lit}`split_sound`: both splits compute them, and when the blocks they make are
  accepted.
-/

namespace SystemFundamentals.Sfmm

open Library Library.LinkedList

variable {P : Platform} {s : Heap} {block units size : Nat}

/-! ## The sizes -/

/-- {lit}`n` rounded up to a multiple of 16. -/
def roundUp16 (n : Nat) : Nat := (n + 15) / 16 * 16

/-- A block of {lit}`units` units is split for a request of {lit}`size` bytes: {lit}`a` bytes
are handed out, padded or not, and {lit}`r` bytes remain. -/
structure SplitOf (size units a r : Nat) (padded : Bool) : Prop where
  sum : a + r = units * 16
  rounded : a = if units * 16 - roundUp16 (size + 16) = 16 then roundUp16 (size + 16) + 16
    else roundUp16 (size + 16)
  remainder : r = 0 ∨ 32 ≤ r
  padded_iff : padded = true ↔ a ≠ size + 16

theorem roundUp_eq (n : Nat) : roundUp n = (roundUp16 n, decide (roundUp16 n ≠ n)) := by
  unfold roundUp roundUp16
  split_ifs with hmod
  · have hround : n + (16 - n % 16) = (n + 15) / 16 * 16 := by omega
    have hne : (n + 15) / 16 * 16 ≠ n := by omega
    rw [hround, decide_eq_true hne]
  · have hround : (n + 15) / 16 * 16 = n := by omega
    rw [hround, decide_eq_false (not_not.mpr rfl)]

/-- The sizes that a split computes. -/
theorem exists_splitOf (hroom : roundUp16 (size + 16) ≤ units * 16) :
    ∃ a r padded, SplitOf size units a r padded := by
  let a := if units * 16 - roundUp16 (size + 16) = 16 then roundUp16 (size + 16) + 16
    else roundUp16 (size + 16)
  have ha : a ≤ units * 16 ∧ (units * 16 - a = 0 ∨ 32 ≤ units * 16 - a) := by
    simp only [a]
    unfold roundUp16 at *
    split_ifs <;> omega
  exact ⟨a, units * 16 - a, decide (a ≠ size + 16), Nat.add_sub_of_le ha.1, rfl, ha.2,
    decide_eq_true_iff⟩

namespace SplitOf

variable {a r : Nat} {padded : Bool}

theorem mod (h : SplitOf size units a r padded) : a % 16 = 0 ∧ r % 16 = 0 := by
  have hsum := h.sum
  have hrounded := h.rounded
  unfold roundUp16 at hrounded
  split_ifs at hrounded <;> omega

theorem room (h : SplitOf size units a r padded) : size + 16 ≤ a := by
  have hrounded := h.rounded
  unfold roundUp16 at hrounded
  split_ifs at hrounded <;> omega

/-- What both calls compute, in units of 16 bytes. -/
theorem computed (h : SplitOf size units a r padded) :
    (if units - roundUp16 (size + 16) / 16 = 1 then roundUp16 (size + 16) + 16
        else roundUp16 (size + 16)) = a ∧
      (if units - roundUp16 (size + 16) / 16 = 1 then true
        else decide (roundUp16 (size + 16) ≠ size + 16)) = padded ∧
      (if a / 16 < units then units - a / 16 else 0) = r / 16 := by
  have hsum := h.sum
  have hmod := h.mod
  have hrounded := h.rounded
  have hpadded := h.padded_iff
  have hiff : units - roundUp16 (size + 16) / 16 = 1 ↔
      units * 16 - roundUp16 (size + 16) = 16 := by
    unfold roundUp16
    omega
  refine ⟨?_, ?_, ?_⟩
  · rw [hrounded]
    exact if_congr hiff rfl rfl
  · rw [Bool.eq_iff_iff, hpadded, hrounded]
    simp only [hiff]
    unfold roundUp16
    split_ifs with hsplinter
    · simp only [true_iff]
      omega
    · exact decide_eq_true_iff
  · split_ifs <;> omega

end SplitOf

/-! ## The tags -/

/-- An allocated block of {lit}`units` units lies at {lit}`block`, as its header tells. -/
structure Bears (P : Platform) (s : Heap) (block units : Nat) : Prop where
  low : P.heapStart ≤ block
  high : block + units * 16 ≤ s.heapEnd
  allocated : (s.tag block).allocated = true
  size : (s.tag block).blockSize = units

/-- The size of a block is below what its field holds. -/
theorem Bears.units_lt (h : Bears P s block units) : units < 2 ^ 28 := by
  rw [← h.size]
  unfold Heap.tag Tag.ofWord
  exact Nat.mod_lt _ (by decide)

/-- The heap after a header and a footer have been stored. -/
def withTags (s : Heap) (block units : Nat) (header footer : Tag) : Heap :=
  (s.setWord block header.toWord).setWord (block + units * 16 - 8) footer.toWord

/-- Tags that record a request pass the checks. -/
theorem withTags_passes {header footer : Tag} {padding : Bool} (hlow : P.heapStart ≤ block)
    (hhigh : block + units * 16 ≤ s.heapEnd) (hunits : units < 2 ^ 28)
    (hfits : size + 16 ≤ units * 16) (hpadding : padding = true ↔ size + 16 ≠ units * 16)
    (hheader : header.allocated = true ∧ header.padded = padding ∧ header.blockSize = units)
    (hfooter : footer.allocated = true ∧ footer.padded = padding ∧ footer.upper = size) :
    Bears P (withTags s block units header footer) block units ∧
      PassesChecks P (withTags s block units header footer) block := by
  have hunitsMod : units % 2 ^ 28 = units := Nat.mod_eq_of_lt hunits
  have hsizeMod : size % 2 ^ 32 = size := Nat.mod_eq_of_lt (by omega)
  have htag : (withTags s block units header footer).tag block = .ofWord header.toWord := by
    rw [withTags, Heap.tag_setWord_of_ne _ _ (by omega) (by omega)]
    exact Heap.tag_setWord_self ..
  have htag' : (withTags s block units header footer).tag (block + units * 16 - 8) =
      .ofWord footer.toWord := Heap.tag_setWord_self ..
  rw [Tag.ofWord_toWord] at htag htag'
  have hbears : Bears P (withTags s block units header footer) block units := by
    refine ⟨hlow, hhigh, ?_, ?_⟩
    · rw [htag]
      exact hheader.1
    · rw [htag]
      show header.blockSize % 2 ^ 28 = units
      rw [hheader.2.2, hunitsMod]
  have haddress : footerOf (withTags s block units header footer) block =
      block + units * 16 - 8 := by rw [footerOf, hbears.size]
  have hend : (withTags s block units header footer).heapEnd = s.heapEnd := rfl
  refine ⟨hbears, checkBounds_eq hlow (by omega), hbears.allocated, ?_, ?_⟩
  · rw [haddress]
    exact checkBounds_eq (by omega) (by omega)
  · have hupper : ((withTags s block units header footer).tag (block + units * 16 - 8)).upper =
        size := by
      rw [htag']
      show footer.upper % 2 ^ 32 = size
      rw [hfooter.2.2, hsizeMod]
    have hpadded : ((withTags s block units header footer).tag block).padded = padding := by
      rw [htag]
      exact hheader.2.1
    rw [haddress]
    apply checkTags_eq ?_ hbears.size
    · rw [hpadded, htag']
      exact hfooter.2.1
    · rw [hupper]
      exact hfits
    · rw [hpadded, hupper]
      exact hpadding
    · rw [htag']
      exact hfooter.1

namespace Bears

variable {u : Nat} {padding : Bool}

/-- A block that gets the tags of a request in place of its own. -/
theorem retagged (h : Bears P s block units) (hle : u ≤ units) (hfits : size + 16 ≤ u * 16)
    (hpadding : padding = true ↔ size + 16 ≠ u * 16) {header footer : Tag}
    (hheader : header.allocated = true ∧ header.padded = padding ∧ header.blockSize = u)
    (hfooter : footer.allocated = true ∧ footer.padded = padding ∧ footer.upper = size) :
    ((s.setWord block header.toWord).tag block).blockSize = u ∧ InHeap P s block ∧
      InHeap P s (block + u * 16 - 8) ∧
      Bears P (withTags s block u header footer) block u ∧
      PassesChecks P (withTags s block u header footer) block := by
  have hlow := h.low
  have hhigh := h.high
  have hlt := h.units_lt
  have hsize : ((s.setWord block header.toWord).tag block).blockSize = u := by
    rw [Heap.tag_setWord_self, Tag.ofWord_toWord]
    show header.blockSize % 2 ^ 28 = u
    rw [hheader.2.2, Nat.mod_eq_of_lt (by omega)]
  exact ⟨hsize, ⟨hlow, by omega⟩, ⟨by omega, by omega⟩,
    withTags_passes hlow (by omega) (by omega) hfits hpadding hheader hfooter⟩

/-- The tags of the block that {lit}`sf_malloc` hands out. -/
theorem writeAllocated_eq (h : Bears P s block units) (hle : u ≤ units)
    (hfits : size + 16 ≤ u * 16) (hpadding : padding = true ↔ size + 16 ≠ u * 16) :
    ∃ s', writeAllocated P size u padding block s = .ok s' ∧ s'.heapEnd = s.heapEnd ∧
      Bears P s' block u ∧ PassesChecks P s' block := by
  let header : Tag := { s.tag block with blockSize := u, padded := padding }
  let s₁ := s.setWord block header.toWord
  let footer : Tag :=
    { s₁.tag (block + u * 16 - 8) with
      allocated := true, padded := padding, blockSize := u, upper := size }
  have hheader : header.allocated = true ∧ header.padded = padding ∧ header.blockSize = u :=
    ⟨h.allocated, rfl, rfl⟩
  have hfooter : footer.allocated = true ∧ footer.padded = padding ∧ footer.upper = size :=
    ⟨rfl, rfl, rfl⟩
  obtain ⟨hsize₁, hin, hin', hpasses⟩ := h.retagged hle hfits hpadding hheader hfooter
  have hin₁ : InHeap P s₁ block := hin
  have hin₁' : InHeap P s₁ (block + u * 16 - 8) := hin'
  refine ⟨withTags s block u header footer, ?_, rfl, hpasses⟩
  rw [writeAllocated, writeTag_eq hin, ok_bind, readTag_eq hin₁, ok_bind, hsize₁,
    writeTag_eq hin₁']
  rfl

/-- The tags of a block that shrinks. -/
theorem writeShrunk_eq (h : Bears P s block units) (hle : u ≤ units)
    (hfits : size + 16 ≤ u * 16) (hpadding : padding = true ↔ size + 16 ≠ u * 16) :
    ∃ s', writeShrunk P size (u * 16) padding block s = .ok s' ∧ s'.heapEnd = s.heapEnd ∧
      Bears P s' block u ∧ PassesChecks P s' block := by
  let header : Tag := { s.tag block with blockSize := u * 16 / 16, padded := padding }
  let s₁ := s.setWord block header.toWord
  let footer : Tag :=
    { allocated := true, padded := padding, twoZeroes := 0, blockSize := u, upper := size }
  have hheader : header.allocated = true ∧ header.padded = padding ∧ header.blockSize = u :=
    ⟨h.allocated, rfl, Nat.mul_div_cancel _ (by decide)⟩
  have hfooter : footer.allocated = true ∧ footer.padded = padding ∧ footer.upper = size :=
    ⟨rfl, rfl, rfl⟩
  obtain ⟨hsize₁, hin, hin', hpasses⟩ := h.retagged hle hfits hpadding hheader hfooter
  have hin₁ : InHeap P s₁ block := hin
  have hin₁' : InHeap P s₁ (block + u * 16 - 8) := hin'
  have hcopy : memcpy P block block size s₁ = .ok s₁ := by
    have hhigh : block + units * 16 ≤ s₁.heapEnd := h.high
    exact memcpy_self h.low (by omega)
  refine ⟨withTags s block u header footer, ?_, rfl, hpasses⟩
  rw [writeShrunk, writeTag_eq hin, ok_bind, hcopy, ok_bind, readTag_eq hin₁, ok_bind, hsize₁,
    writeTag_eq hin₁']
  rfl

/-- The tail that {lit}`sf_realloc` cuts off is freed without an abort. -/
theorem freeTail_avoids (hlow : P.heapStart ≤ block) (hhigh : block + u * 16 ≤ s.heapEnd)
    (hunits : 1 ≤ u) (hlt : u < 2 ^ 28) (fuel : Nat) :
    Avoids .abort (freeTail P fuel block u s) := by
  let header : Tag := { s.tag block with allocated := true, blockSize := u, padded := false }
  let s₁ := s.setWord block header.toWord
  have hsize₁ : (s₁.tag block).blockSize = u := by
    rw [Heap.tag_setWord_self, Tag.ofWord_toWord]
    exact Nat.mod_eq_of_lt hlt
  let footer : Tag :=
    { s₁.tag (block + u * 16 - 8) with
      allocated := true, blockSize := u, padded := false, upper := u * 16 - 16 }
  have hpadding : false = true ↔ u * 16 - 16 + 16 ≠ u * 16 := by
    simp only [Bool.false_eq_true, false_iff, not_not]
    omega
  have hpasses : PassesChecks P (withTags s block u header footer) block :=
    (withTags_passes hlow hhigh hlt (by omega) hpadding ⟨rfl, rfl, rfl⟩ ⟨rfl, rfl, rfl⟩).2
  have hin : InHeap P s block := ⟨hlow, by omega⟩
  have hfooter : InHeap P s (block + u * 16 - 8) := ⟨by omega, by omega⟩
  have hin₁ : InHeap P s₁ block := hin
  have hfooter₁ : InHeap P s₁ (block + u * 16 - 8) := hfooter
  rw [freeTail, writeTag_eq hin, ok_bind, readTag_eq hin₁, ok_bind, hsize₁,
    writeTag_eq hfooter₁, ok_bind]
  exact hpasses.sfFree_avoids fuel

end Bears

/-! ## The two splits -/

/-- The tags of the block of {lit}`a` bytes at {lit}`block` are the same in two heaps. -/
structure SameTags (a block : Nat) (s t : Heap) : Prop where
  header : t.tag block = s.tag block
  footer : t.tag (block + a - 8) = s.tag (block + a - 8)
  heapEnd_le : s.heapEnd ≤ t.heapEnd

/-- When {lit}`sf_realloc` moves a block of {lit}`a` bytes, what {lit}`sf_malloc` and
{lit}`memcpy` leave of its tags gets through the checks of {lit}`sf_free`. -/
def TagsSurvive (P : Platform) (size a block : Nat) (s : Heap) : Prop :=
  ∀ s₁ s₂ new, MallocReturns P size s s₁ new → new ≠ 0 →
    memcpy P new block (s₁.tag (block + a - 8)).upper s₁ = .ok s₂ → FreeSpares P s₂ block

/-- The block passes the checks of {lit}`sf_free` and {lit}`sf_realloc`.  {lit}`sf_free` does
not abort on it, and {lit}`sf_realloc` only when it moves the block and the tags do not
survive; they do if the call of {lit}`sf_malloc` is safe. -/
structure Accepted (P : Platform) (a block : Nat) (s : Heap) : Prop where
  checks : PassesChecks P s block
  free : ∀ fuel, Avoids .abort (sfFree P fuel (block + 8) s)
  realloc_iff : ∀ size, size + 16 < 2 ^ 64 →
    ((∀ fuel, Avoids .abort (sfRealloc P fuel (block + 8) size s)) ↔
      (a < size + 16 → TagsSurvive P size a block s))
  survive : ∀ requested size, Live P s ⟨block, a / 16, true⟩ requested → a < size + 16 →
    size + 16 < 2 ^ 64 → MallocSafe P size s → TagsSurvive P size a block s

/-- In every heap with these tags the block is accepted. -/
def TagsAccepted (P : Platform) (a block : Nat) (s : Heap) : Prop :=
  ∀ t, SameTags a block s t → Accepted P a block t

/-- The split of {lit}`sf_malloc`, after the block has been taken off its list. -/
def MallocSplits (P : Platform) (size units a r : Nat) (padded : Bool) : Prop :=
  ∀ s s₁ i block allocatedBlock, claimBlock P i block s = .ok s₁ → Bears P s₁ block units →
    ∃ s₂, writeAllocated P size (a / 16) padded block s₁ = .ok s₂ ∧ TagsAccepted P a block s₂ ∧
      place P size i block
          ⟨s, (roundUp (size + 16)).1, (roundUp (size + 16)).2, allocatedBlock⟩ =
        (if r = 0 then .ok s₂ else placeRemainder P i (block + a) (r / 16) s₂) >>= fun s₃ =>
          .ok ⟨s₃, a, padded, block + 8⟩

/-- The split of {lit}`sf_realloc`. -/
def ReallocSplits (P : Platform) (size units a r : Nat) (padded : Bool) : Prop :=
  ∀ s block, Bears P s block units →
    ∃ s₂, writeShrunk P size a padded block s = .ok s₂ ∧ TagsAccepted P a block s₂ ∧
      ∀ fuel, shrink P fuel block size s =
          (if r = 0 then .ok s₂ else freeTail P fuel (block + a) (r / 16) s₂) ∧
        Avoids .abort (shrink P fuel block size s)

variable {a r : Nat} {padded : Bool}

/-- What {lit}`sf_malloc` does with the block it has chosen. -/
theorem place_splits (h : SplitOf size units a r padded) {s₁ : Heap} {i : Fin 4}
    {allocatedBlock : Nat} (hclaim : claimBlock P i block s = .ok s₁)
    (hbears : Bears P s₁ block units) :
    ∃ s₂, writeAllocated P size (a / 16) padded block s₁ = .ok s₂ ∧
      Bears P s₂ block (a / 16) ∧ PassesChecks P s₂ block ∧
      place P size i block
          ⟨s, (roundUp (size + 16)).1, (roundUp (size + 16)).2, allocatedBlock⟩ =
        (if r = 0 then .ok s₂ else placeRemainder P i (block + a) (r / 16) s₂) >>= fun s₃ =>
          .ok ⟨s₃, a, padded, block + 8⟩ := by
  have hsum := h.sum
  have hmod := h.mod
  have hroom := h.room
  have hexact : a / 16 * 16 = a := by omega
  rcases h.computed with ⟨hrequired, hpadding, hsecond⟩
  have hpadded : padded = true ↔ size + 16 ≠ a / 16 * 16 := by
    rw [hexact, ne_comm]
    exact h.padded_iff
  rcases hbears.writeAllocated_eq (by omega) (by omega) hpadded with
    ⟨s₂, hwrite, hend, hbears₂, hpasses⟩
  have hin : InHeap P s₁ block := ⟨hbears.low, by have := hbears.high; omega⟩
  have hin₂ : InHeap P s₂ block := ⟨hbears.low, by rw [hend]; exact hin.2⟩
  refine ⟨s₂, hwrite, hbears₂, hpasses, ?_⟩
  unfold place
  rw [hclaim, ok_bind, readTag_eq hin, ok_bind, hbears.size, roundUp_eq]
  dsimp only
  rw [hrequired, hpadding, hsecond, hwrite, ok_bind]
  by_cases hzero : r = 0
  · rw [if_pos hzero, if_neg (by omega)]
  · rw [if_neg hzero, if_pos (by omega), readTag_eq hin₂, ok_bind, hbears₂.size, hexact]

/-- What {lit}`sf_realloc` does with a block that shrinks. -/
theorem shrink_splits (h : SplitOf size units a r padded) (hbears : Bears P s block units) :
    ∃ s₂, writeShrunk P size a padded block s = .ok s₂ ∧
      Bears P s₂ block (a / 16) ∧ PassesChecks P s₂ block ∧
      ∀ fuel, shrink P fuel block size s =
          (if r = 0 then .ok s₂ else freeTail P fuel (block + a) (r / 16) s₂) ∧
        Avoids .abort (shrink P fuel block size s) := by
  have hsum := h.sum
  have hmod := h.mod
  have hroom := h.room
  have hlt := hbears.units_lt
  have hlow := hbears.low
  have hhigh := hbears.high
  have hexact : a / 16 * 16 = a := by omega
  have hwrap : (size + 16) % 2 ^ 64 = size + 16 := Nat.mod_eq_of_lt (by omega)
  rcases h.computed with ⟨hrequired, hpadding, hsecond⟩
  have hpadded : padded = true ↔ size + 16 ≠ a / 16 * 16 := by
    rw [hexact, ne_comm]
    exact h.padded_iff
  rcases hbears.writeShrunk_eq (by omega) (by omega) hpadded with
    ⟨s₂, hwrite, hend, hbears₂, hpasses⟩
  rw [hexact] at hwrite
  have hin : InHeap P s block := ⟨hlow, by omega⟩
  have hin₂ : InHeap P s₂ block := ⟨hlow, by omega⟩
  refine ⟨s₂, hwrite, hbears₂, hpasses, ?_⟩
  intro fuel
  have heq : shrink P fuel block size s =
      if r = 0 then .ok s₂ else freeTail P fuel (block + a) (r / 16) s₂ := by
    unfold shrink
    rw [readTag_eq hin, ok_bind, hbears.size, hwrap, roundUp_eq]
    dsimp only
    rw [hrequired, hpadding, hsecond, hwrite, ok_bind]
    by_cases hzero : r = 0
    · rw [if_pos hzero, if_neg (by omega)]
    · rw [if_neg hzero, if_pos (by omega), readTag_eq hin₂, ok_bind, hbears₂.size, hexact]
  refine ⟨heq, ?_⟩
  rw [heq]
  refine .ite (fun _ => .ok _) fun hzero => ?_
  have hrest : r = 0 ∨ 32 ≤ r := h.remainder
  exact Bears.freeTail_avoids (by omega) (by omega) (by omega) (by omega) fuel

/-! ## What is accepted -/

/-- The checks look at the two tags and the extent of the heap. -/
theorem PassesChecks.congr {t : Heap} (h : PassesChecks P s block)
    (hsame : SameTags ((s.tag block).blockSize * 16) block s t) : PassesChecks P t block := by
  have hend := hsame.heapEnd_le
  have haddress : footerOf t block = footerOf s block := by
    unfold footerOf
    rw [hsame.header]
  have hbounds {address : Nat} (hok : checkBounds P s address = .ok ()) :
      checkBounds P t address = .ok () := by
    unfold checkBounds at hok ⊢
    split_ifs at hok with hout
    rw [if_neg (by omega)]
  refine ⟨hbounds h.bounds, ?_, ?_, ?_⟩
  · rw [hsame.header]
    exact h.allocated
  · rw [haddress]
    exact hbounds h.footerBounds
  · rw [haddress, hsame.header, footerOf, hsame.footer]
    exact h.tags

theorem Bears.congr {t : Heap} (h : Bears P s block units)
    (hsame : SameTags a block s t) : Bears P t block units where
  low := h.low
  high := Nat.le_trans h.high hsame.heapEnd_le
  allocated := by
    rw [hsame.header]
    exact h.allocated
  size := by
    rw [hsame.header]
    exact h.size

theorem PassesChecks.units_pos (h : PassesChecks P s block) (hbears : Bears P s block units) :
    1 ≤ units := by
  have htags := h.tags
  unfold checkTags at htags
  rw [hbears.size] at htags
  split_ifs at htags with hallocated hpadded hfits hexact
  omega

/-- {lit}`sf_realloc` behind its checks. -/
theorem PassesChecks.sfRealloc_eq (h : PassesChecks P s block) (hbears : Bears P s block units)
    (hsize : size ≠ 0) (hwidth : size + 16 < 2 ^ 64) (fuel : Nat) :
    sfRealloc P fuel (block + 8) size s =
      if units * 16 < size + 16 then do
        let (s, new) ← sfMalloc P fuel fuel size s
        if new = 0 then .ok (s, 0)
        else
          let footer ← readTag P s (block + units * 16 - 8)
          let s ← memcpy P new block footer.upper s
          let s ← sfFree P fuel (block + 8) s
          .ok (s, new)
      else if size + 16 < units * 16 then do
        let s ← shrink P fuel block size s
        .ok (s, block + 8)
      else .ok (s, block + 8) := by
  have hlow := hbears.low
  have hhigh := hbears.high
  have hpos := h.units_pos hbears
  have haddress : block + units * 16 - 8 = footerOf s block := by rw [footerOf, hbears.size]
  have hin : InHeap P s block := ⟨hlow, by omega⟩
  have hfooter : InHeap P s (footerOf s block) := by
    rw [← haddress]
    exact ⟨by omega, by omega⟩
  rw [sfRealloc, if_neg hsize]
  dsimp only
  rw [Nat.add_sub_cancel, h.bounds, ok_bind, readTag_eq hin, ok_bind, h.allocated,
    if_neg (by simp), hbears.size, haddress, h.footerBounds, ok_bind, readTag_eq hfooter, ok_bind,
    h.tags, ok_bind, Nat.mod_eq_of_lt hwidth]

/-- {lit}`sf_realloc` does not abort on a block that stays where it is. -/
theorem PassesChecks.sfRealloc_stays (h : PassesChecks P s block)
    (hbears : Bears P s block units) (hroom : size + 16 ≤ units * 16) (fuel : Nat) :
    Avoids .abort (sfRealloc P fuel (block + 8) size s) := by
  have hlt := hbears.units_lt
  by_cases hsize : size = 0
  · rw [sfRealloc, if_pos hsize]
    exact .bind (h.sfFree_avoids fuel) fun s₁ _ => .ok _
  · rw [h.sfRealloc_eq hbears hsize (by omega), if_neg (by omega)]
    refine .ite (fun _ => ?_) fun _ => .ok _
    have hround : roundUp16 (size + 16) ≤ units * 16 := by
      unfold roundUp16
      omega
    rcases exists_splitOf hround with ⟨a, r, padded, hsplit⟩
    rcases shrink_splits hsplit hbears with ⟨s₂, -, -, -, hshrink⟩
    exact .bind (hshrink fuel).2 fun s₃ _ => .ok _

/-- A block that {lit}`sf_realloc` moves is freed last. -/
theorem PassesChecks.sfRealloc_moves (h : PassesChecks P s block)
    (hbears : Bears P s block units) (hgrow : units * 16 < size + 16)
    (hwidth : size + 16 < 2 ^ 64) {fuel new : Nat} {s₁ s₂ : Heap}
    (hmalloc : sfMalloc P fuel fuel size s = .ok (s₁, new)) (hnew : new ≠ 0)
    (hcopy : memcpy P new block (s₁.tag (block + units * 16 - 8)).upper s₁ = .ok s₂) :
    sfRealloc P fuel (block + 8) size s =
      sfFree P fuel (block + 8) s₂ >>= fun s₃ => .ok (s₃, new) := by
  have hpos := h.units_pos hbears
  have hlow := hbears.low
  have hhigh := hbears.high
  have hend := sfMalloc_heapEnd_le hmalloc
  have hfooter : InHeap P s₁ (block + units * 16 - 8) := ⟨by omega, by omega⟩
  rw [h.sfRealloc_eq hbears (by omega) hwidth, if_pos hgrow, hmalloc, ok_bind]
  dsimp only
  rw [if_neg hnew, readTag_eq hfooter, ok_bind, hcopy, ok_bind]

/-- {lit}`sf_realloc` does not abort on a block that it moves exactly when what is left of the
tags gets through the checks of {lit}`sf_free`. -/
theorem PassesChecks.sfRealloc_moves_iff (h : PassesChecks P s block)
    (hbears : Bears P s block units) (hgrow : units * 16 < size + 16)
    (hwidth : size + 16 < 2 ^ 64) :
    (∀ fuel, Avoids .abort (sfRealloc P fuel (block + 8) size s)) ↔
      TagsSurvive P size (units * 16) block s := by
  have hpos := h.units_pos hbears
  constructor
  · rintro havoids s₁ s₂ new ⟨bound, hmalloc⟩ hnew hcopy
    have h₁ := havoids bound
    rw [h.sfRealloc_moves hbears hgrow hwidth (hmalloc _ _ le_rfl le_rfl) hnew hcopy] at h₁
    exact (sfFree_avoids_iff bound block s₂).mp h₁.of_bind
  · intro hsurvive fuel
    rw [h.sfRealloc_eq hbears (by omega) hwidth, if_pos hgrow]
    refine .bind (sfMalloc_avoids _ _ _ _) fun answer hmalloc => .ite (fun _ => .ok _)
      fun hnew => .bind (readTag_avoids _ _) fun footer hfooter =>
      .bind (memcpy_avoids _ _ _ _) fun s₂ hcopy => ?_
    rw [← (eq_of_readTag hfooter).2] at hcopy
    have hspares := hsurvive _ _ _ (mallocReturns_of_eq hmalloc) hnew hcopy
    exact .bind ((sfFree_avoids_iff fuel block s₂).mpr hspares) fun s₃ _ => .ok _

/-- A block with tags that pass the checks is accepted. -/
theorem accepted_of_passes {t : Heap} (hmod : a % 16 = 0) (hbears : Bears P s block (a / 16))
    (hpasses : PassesChecks P s block) (hsame : SameTags a block s t) :
    Accepted P a block t := by
  have hexact : a / 16 * 16 = a := by omega
  have hchecks : PassesChecks P t block := by
    apply hpasses.congr
    rw [hbears.size, hexact]
    exact hsame
  have hbears' : Bears P t block (a / 16) := hbears.congr hsame
  have hmoves {size : Nat} (hgrow : a < size + 16) (hwidth : size + 16 < 2 ^ 64) :
      (∀ fuel, Avoids .abort (sfRealloc P fuel (block + 8) size t)) ↔
        TagsSurvive P size a block t := by
    have hiff := hchecks.sfRealloc_moves_iff hbears' (by rw [hexact]; exact hgrow) hwidth
    rwa [hexact] at hiff
  refine ⟨hchecks, hchecks.sfFree_avoids, ?_, ?_⟩
  · intro size hwidth
    by_cases hgrow : a < size + 16
    · rw [hmoves hgrow hwidth]
      exact ⟨fun h _ => h, fun h => h hgrow⟩
    · refine iff_of_true ?_ fun h => absurd h hgrow
      exact hchecks.sfRealloc_stays hbears' (by omega)
  · intro requested size hlive hgrow hwidth hsafe
    have hgrow' : a / 16 * 16 < size + 16 := by omega
    rcases hlive.moves hsafe hgrow' hwidth with ⟨s', new, ⟨bound, hreturns⟩, -⟩
    rintro s₁ s₂ new' ⟨bound', hmalloc⟩ hnew hcopy
    let fuel := max bound bound'
    have hle : bound' ≤ fuel := le_max_right ..
    rw [← hexact] at hcopy
    have hmoves := hchecks.sfRealloc_moves hbears' hgrow' hwidth (hmalloc _ _ hle hle) hnew hcopy
    have hreturned : sfRealloc P fuel (block + 8) size t = .ok (s', new) :=
      hreturns fuel (le_max_left ..)
    have havoids : Avoids .abort (sfRealloc P fuel (block + 8) size t) := by
      rw [hreturned]
      exact .ok _
    rw [hmoves] at havoids
    exact (sfFree_avoids_iff fuel block s₂).mp havoids.of_bind

/-- After requests of 112, 400 and 16 bytes the client stores the address 65528 in the second
payload, behind the room that a request of 200 bytes will take, and frees it. -/
def strayHeap : Heap :=
  freeHeap 65672
    (((mallocHeap 16 (mallocHeap 400 (mallocHeap 112 blank))).setByte (65672 + 232) 0xF8).setByte
      (65672 + 233) 0xFF)

theorem strayHeap_values :
    ((sfMalloc fourPages 20 20 112 blank).toOption.map Prod.snd = some 65544 ∧
      (sfMalloc fourPages 20 20 400 (mallocHeap 112 blank)).toOption.map Prod.snd = some 65672 ∧
        (sfMalloc fourPages 20 20 16 (mallocHeap 400 (mallocHeap 112 blank))).toOption.map
          Prod.snd = some 66088 ∧
          (sfFree fourPages 20 65672
            (((mallocHeap 16 (mallocHeap 400 (mallocHeap 112 blank))).setByte (65672 + 232)
              0xF8).setByte (65672 + 233) 0xFF)).toOption.isSome = true) ∧
      (strayHeap.tag 65536 = (mallocHeap 112 blank).tag 65536 ∧
        strayHeap.tag 65656 = (mallocHeap 112 blank).tag 65656) ∧
        (sfRealloc fourPages 20 65544 200 strayHeap).map (fun _ => ()) = .error .abort := by
  decide +kernel

theorem strayHeap_reachable :
    (allocator fourPages).Reachable ⟨strayHeap, [⟨66088, 16⟩, ⟨65544, 112⟩]⟩ := by
  rcases strayHeap_values.1 with ⟨hfirst, hsecond, hthird, hfree⟩
  have hthree := reachable_malloc (reachable_malloc (reachable_malloc (.initial blank_empty)
    (by decide) hfirst (by decide)) (by decide) hsecond (by decide)) (by decide) hthird (by decide)
  have hlow := reachable_write ⟨65672, 400⟩ 232 0xF8 hthree (by decide) (by decide)
  have hhigh := reachable_write ⟨65672, 400⟩ 233 0xFF hlow (by decide) (by decide)
  exact reachable_free (a := ⟨65672, 400⟩) hhigh (by decide) hfree

end SystemFundamentals.Sfmm
