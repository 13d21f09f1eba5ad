import SystemFundamentals.Sfmm.Malloc

/-!
# sf_realloc

A reallocation keeps its block and frees what is too much, or keeps the block as it is, or
moves to a new block.

Main results:

- Theorem {lit}`shrink_returns`: shrinking keeps the payload and records the new size.
- Theorem {lit}`moved_returns`: moving gives a block that records the new size and holds
  what {lit}`memcpy` has copied to it.
-/

namespace SystemFundamentals.Sfmm

open Library Library.LinkedList

variable {P : Platform} {checked : Prop} {orig : Memory} {keep : Block → Prop} {s s' : Heap}
  {front back blocks pending : List Block} {lo hi : Nat} {lists : Fin 4 → List Nat}
  {block : Block} {size : Nat}

namespace Gapped

/-! ## What is kept -/

/-- From a state on, any allocated blocks can be the kept ones. -/
theorem rebase (h : Gapped P checked orig keep s front lo hi back pending lists)
    (keep' : Block → Prop) (hkeep' : ∀ b, keep' b → b ∈ front ++ back ∧ b.allocated = true) :
    Gapped P checked s.mem keep' s front lo hi back pending lists :=
  { h with
    keepMem := hkeep'
    kept := fun _ _ _ _ _ => rfl }

/-- What is kept from a state in between on is kept. -/
theorem restore {middle : Memory} {keep' : Block → Prop}
    (h : Layout P checked middle keep' s blocks lists) (hsub : ∀ b, keep b → keep' b)
    (hmiddle : ∀ b, keep b → ∀ a, b.addr ≤ a → a < b.stop → middle a = orig a) :
    Layout P checked orig keep s blocks lists :=
  { h with
    keepMem := fun b hb => h.keepMem b (hsub b hb)
    kept := fun b hb a hlow hhigh =>
      (h.kept b (hsub b hb) a hlow hhigh).trans (hmiddle b hb a hlow hhigh) }

/-- The tags of a kept block. -/
theorem tag_kept {s₀ : Heap} (h : Layout P checked s₀.mem keep s blocks lists)
    (hkeep : keep block) : s.tag block.addr = s₀.tag block.addr ∧
      s.tag (block.stop - 8) = s₀.tag (block.stop - 8) := by
  have hbounds := h.outside (h.keepMem block hkeep).1
  have hstop : block.stop = block.addr + 16 * block.units := rfl
  constructor
  · apply Heap.tag_congr
    apply Memory.readWord_congr
    intro i hi
    exact h.kept block hkeep _ (by omega) (by omega)
  · apply Heap.tag_congr
    apply Memory.readWord_congr
    intro i hi
    exact h.kept block hkeep _ (by omega) (by omega)

/-- The bytes between the tags of an allocated block are not part of the layout. -/
theorem writePayload (h : Layout P checked orig keep s (front ++ block :: back) lists)
    (hallocated : block.allocated = true) (hkeep : ¬ keep block)
    (hend : s'.heapEnd = s.heapEnd) (hhead : s'.head = s.head)
    (hmem : ∀ a, a < block.addr + 8 ∨ block.stop - 8 ≤ a → s'.mem a = s.mem a) :
    Layout P checked orig keep s' (front ++ block :: back) lists := by
  rcases h.move with ⟨middle, hmoved⟩
  rw [List.append_nil] at hmoved
  have htagged := hmoved.tagged block (List.mem_append_right _ List.mem_cons_self)
  rcases hmoved.backTiles with ⟨rfl, hunits, -⟩
  have hstop : block.stop = block.addr + 16 * block.units := rfl
  have hgap := (hmoved.takeAllocated hallocated hkeep).of_gap_change hend hhead (by
    intro a ha
    apply hmem
    simp only [List.not_mem_nil, false_and, exists_false, or_false] at ha
    omega)
  have hword (w : Nat) (hw : w + 8 ≤ block.addr + 8 ∨ block.stop - 8 ≤ w) :
      s'.word w = s.word w := by
    apply Memory.readWord_congr
    intro i hi
    apply hmem
    omega
  have htagged' : Tagged checked s' block :=
    htagged.congr (Heap.tag_congr (hword _ (by omega))) (Heap.tag_congr (hword _ (by omega)))
  have hput := (hgap.putAllocated rfl hunits le_rfl hallocated htagged').close
  rw [List.append_assoc, List.singleton_append] at hput
  exact hput

end Gapped

/-! ## The checks -/

/-- An allocated block of a well-formed heap passes the checks of {lit}`sf_realloc`. -/
theorem sfRealloc_eq (h : Layout P checked orig keep s blocks lists) (hmem : block ∈ blocks)
    (hallocated : block.allocated = true) (hconsistent : Consistent s block) (hsize : size ≠ 0)
    (fuel : Nat) :
    sfRealloc P fuel (block.addr + 8) size s =
      if block.units * 16 < (size + 16) % 2 ^ 64 then do
        let (s, new) ← sfMalloc P fuel fuel size s
        if new = 0 then .ok (s, 0)
        else
          let footer ← readTag P s (block.stop - 8)
          let s ← memcpy P new block.addr footer.upper s
          let s ← sfFree P fuel (block.addr + 8) s
          .ok (s, new)
      else if (size + 16) % 2 ^ 64 < block.units * 16 then do
        let s ← shrink P fuel block.addr size s
        .ok (s, block.addr + 8)
      else .ok (s, block.addr + 8) := by
  have htagged := h.tagged block (List.mem_append_left _ hmem)
  have hbounds := h.outside (List.mem_append_left [] hmem)
  have hstop : block.stop = block.addr + 16 * block.units := rfl
  have hfooter : block.addr + block.units * 16 - 8 = block.stop - 8 := by omega
  have hheaderIn : InHeap P s block.addr := ⟨by omega, by omega⟩
  have hfooterIn : InHeap P s (block.stop - 8) := ⟨by omega, by omega⟩
  have hchecks : checkTags (s.tag block.addr) (s.tag (block.stop - 8)) = .ok () :=
    checkTags_eq (htagged.footerAllocated.trans hallocated) htagged.headerSize
      hconsistent.padded hconsistent.fits hconsistent.padded_iff
  rw [sfRealloc, if_neg hsize]
  dsimp only
  rw [Nat.add_sub_cancel, checkBounds_eq (by omega) (by omega), ok_bind,
    readTag_eq hheaderIn, ok_bind, htagged.headerAllocated, hallocated, if_neg (by simp),
    htagged.headerSize, hfooter, checkBounds_eq (by omega) (by omega), ok_bind,
    readTag_eq hfooterIn, ok_bind, hchecks, ok_bind]

/-! ## Shrinking -/

/-- Copying a block of the heap onto itself changes nothing. -/
theorem memcpy_self {address : Nat} (hlow : P.heapStart ≤ address)
    (hhigh : address + size ≤ s.heapEnd) : memcpy P address address size s = .ok s := by
  unfold memcpy
  rw [Memory.copyBytes_self]
  split_ifs with hzero hrange
  · rfl
  · rfl
  · omega

namespace Gapped

/-- An assignment to bit-fields in the gap leaves the other bytes alone. -/
theorem writeTag_bytes (h : Gapped P checked orig keep s front lo hi back [] lists)
    (address : Nat) (f : Tag → Tag) (hlow : lo ≤ address) (hhigh : address + 8 ≤ hi) :
    ∃ s', writeTag P s address f = .ok s' ∧
      Gapped P checked orig keep s' front lo hi back [] lists ∧
      s'.tag address = .ofWord (f (s.tag address)).toWord ∧
      ∀ a, a < address ∨ address + 8 ≤ a → s'.mem a = s.mem a :=
  ⟨s.setWord address (f (s.tag address)).toWord,
    writeTag_eq (h.inHeap_gap hlow hhigh) f, h.setWord _ hlow hhigh,
    Heap.tag_setWord_self .., fun _ ha => Memory.writeWord_of_outside _ ha⟩

/-- The block that is kept has the tags of the smaller request, and its payload is as it
was. -/
theorem writeShrunk_eq (h : Gapped P checked orig keep s front lo hi back [] lists)
    {units : Nat} {padding : Bool} (hunits : 2 ≤ units) (hroom : lo + 16 * units ≤ hi)
    (hallocated : (s.tag lo).allocated = true) (hsize : size + 16 ≤ units * 16)
    (hpadding : padding = true ↔ size + 16 ≠ units * 16) :
    ∃ s', writeShrunk P size (units * 16) padding lo s = .ok s' ∧
      Gapped P checked orig keep s' front lo hi back [] lists ∧
      Tagged checked s' ⟨lo, units, true⟩ ∧ Records s' ⟨lo, units, true⟩ size ∧
      ∀ a, lo + 8 ≤ a → a < lo + 8 + size → s'.mem a = s.mem a := by
  have hlimit := h.size_le
  have hunitsMod : units % 2 ^ 28 = units := Nat.mod_eq_of_lt (by omega)
  have hsizeMod : size % 2 ^ 32 = size := Nat.mod_eq_of_lt (by omega)
  rcases h.writeTag_bytes lo
    (fun header => { header with blockSize := units * 16 / 16, padded := padding }) le_rfl
    (by omega) with ⟨s₁, hwrite₁, h₁, htag₁, hmem₁⟩
  rw [Tag.ofWord_toWord] at htag₁
  have hsize₁ : (s₁.tag lo).blockSize = units := by
    rw [htag₁]
    show units * 16 / 16 % 2 ^ 28 = units
    omega
  have hcopy : memcpy P lo lo size s₁ = .ok s₁ := by
    have hhigh := h₁.backTiles.le
    exact memcpy_self h₁.frontTiles.le (by omega)
  have haddress : lo + units * 16 - 8 = lo + 16 * units - 8 := by omega
  rcases h₁.writeTag_bytes (lo + 16 * units - 8) (fun _ =>
      { allocated := true, padded := padding, twoZeroes := 0
        blockSize := (s₁.tag lo).blockSize, upper := size }) (by omega) (by omega) with
    ⟨s₂, hwrite₂, h₂, htag₂, hmem₂⟩
  rw [Tag.ofWord_toWord] at htag₂
  have hheader₂ : s₂.tag lo = s₁.tag lo := by
    apply Heap.tag_congr
    apply Memory.readWord_congr
    intro i hi
    exact hmem₂ _ (by omega)
  have htagged : Tagged checked s₂ ⟨lo, units, true⟩ ∧ Records s₂ ⟨lo, units, true⟩ size := by
    refine tagged_of_request ?_ ?_ hsize hpadding
    · rw [hheader₂]
      refine ⟨?_, hsize₁, ?_⟩
      · rw [htag₁]
        exact hallocated
      · rw [htag₁]
    · rw [htag₂, hsize₁]
      exact ⟨rfl, hunitsMod, rfl, hsizeMod⟩
  refine ⟨s₂, ?_, h₂, htagged.1, htagged.2, ?_⟩
  · rw [writeShrunk, hwrite₁, ok_bind, hcopy, ok_bind, h₁.readTag_gap le_rfl (by omega), ok_bind,
      haddress]
    exact hwrite₂
  · intro a hlow hhigh
    rw [hmem₂ a (by omega), hmem₁ a (by omega)]

/-- The tail is freed. -/
theorem freeTail_returns (h : Gapped P checked orig keep s front lo hi back [] lists)
    {units : Nat} (hunits : 2 ≤ units) (hroom : lo + 16 * units = hi) :
    ∃ s' blocks' lists', Returns (fun fuel => freeTail P fuel lo units s) s' ∧
      Layout P checked orig keep s' blocks' lists' := by
  have hlimit := h.size_le
  have hunitsMod : units % 2 ^ 28 = units := Nat.mod_eq_of_lt (by omega)
  have hupperMod : (units * 16 - 16) % 2 ^ 32 = units * 16 - 16 :=
    Nat.mod_eq_of_lt (by omega)
  rcases h.writeTag_bytes lo
    (fun header => { header with allocated := true, blockSize := units, padded := false })
    le_rfl (by omega) with ⟨s₁, hwrite₁, h₁, htag₁, hmem₁⟩
  rw [Tag.ofWord_toWord] at htag₁
  have hsize₁ : (s₁.tag lo).blockSize = units := by
    rw [htag₁]
    exact hunitsMod
  have haddress : lo + (s₁.tag lo).blockSize * 16 - 8 = lo + 16 * units - 8 := by
    rw [hsize₁]
    omega
  rcases h₁.writeTag_bytes (lo + 16 * units - 8) (fun footer =>
      { footer with
        allocated := true, blockSize := units, padded := false, upper := units * 16 - 16 })
      (by omega) (by omega) with ⟨s₂, hwrite₂, h₂, htag₂, hmem₂⟩
  rw [Tag.ofWord_toWord] at htag₂
  have hheader₂ : s₂.tag lo = s₁.tag lo := by
    apply Heap.tag_congr
    apply Memory.readWord_congr
    intro i hi
    exact hmem₂ _ (by omega)
  have htagged : Tagged checked s₂ ⟨lo, units, true⟩ ∧
      Records s₂ ⟨lo, units, true⟩ (units * 16 - 16) := by
    have hpadding : false = true ↔ units * 16 - 16 + 16 ≠ units * 16 := by
      simp only [Bool.false_eq_true, false_iff, not_not]
      omega
    refine tagged_of_request ?_ ?_ (by omega) hpadding
    · rw [hheader₂, htag₁]
      exact ⟨rfl, hunitsMod, rfl⟩
    · rw [htag₂]
      exact ⟨rfl, hunitsMod, rfl, hupperMod⟩
  let tail : Block := ⟨lo, units, true⟩
  have hstop : tail.stop = hi := hroom
  have hput : Gapped P checked orig keep s₂ (front ++ [tail]) tail.stop hi back [] lists :=
    h₂.putAllocated rfl hunits hstop.le rfl htagged.1
  rw [hstop] at hput
  have hclosed := hput.close
  rw [List.append_assoc, List.singleton_append] at hclosed
  have hkeep : ¬ keep tail := fun htail => h.keep_ne (by omega) htail rfl
  rcases sfFree_returns hclosed rfl htagged.2.toConsistent hkeep with
    ⟨s', hreturns, hlayout, -⟩
  refine ⟨s', _, _, ?_, hlayout⟩
  apply hreturns.congr
  intro fuel
  rw [freeTail, hwrite₁, ok_bind, h₁.readTag_gap le_rfl (by omega), ok_bind, haddress, hwrite₂,
    ok_bind]

/-- The block and what is too much of it, when there is such a tail. -/
theorem shrinkTo_returns (h : Gapped P checked orig keep s front lo hi back [] lists)
    {units : Nat} {padding : Bool} (hunits : 2 ≤ units) (hallocated : (s.tag lo).allocated = true)
    (hsize : size + 16 ≤ units * 16) (hpadding : padding = true ↔ size + 16 ≠ units * 16)
    (hroom : lo + 16 * units = hi ∨ lo + 16 * units + 32 ≤ hi) :
    ∃ s₁ s' blocks' lists', writeShrunk P size (units * 16) padding lo s = .ok s₁ ∧
      readTag P s₁ lo = .ok (s₁.tag lo) ∧ (s₁.tag lo).blockSize = units ∧
      (if lo + 16 * units = hi then s' = s₁
        else Returns (fun fuel => freeTail P fuel (lo + units * 16) ((hi - lo) / 16 - units) s₁)
          s') ∧
      Layout P checked orig keep s' blocks' lists' ∧ ⟨lo, units, true⟩ ∈ blocks' ∧
      Records s' ⟨lo, units, true⟩ size ∧
      ∀ a, lo + 8 ≤ a → a < lo + 8 + size → s'.mem a = s.mem a := by
  rcases h.writeShrunk_eq hunits (by omega) hallocated hsize hpadding with
    ⟨s₁, hwrite, h₁, htagged, hrecords, hmem⟩
  let first : Block := ⟨lo, units, true⟩
  have hfirst : first.stop = lo + 16 * units := rfl
  have hput : Gapped P checked orig keep s₁ (front ++ [first]) first.stop hi back [] lists :=
    h₁.putAllocated rfl hunits (by omega) rfl htagged
  have hread : readTag P s₁ lo = .ok (s₁.tag lo) := h₁.readTag_gap le_rfl (by omega)
  by_cases hwhole : lo + 16 * units = hi
  · rw [hfirst, hwhole] at hput
    refine ⟨s₁, s₁, _, _, hwrite, hread, htagged.headerSize, ?_, hput.close, by simp [first],
      hrecords, hmem⟩
    rw [if_pos hwhole]
  · -- the first block is kept while the tail is freed
    have hkeepFirst : ∀ b, keep b ∨ b = first →
        b ∈ front ++ [first] ++ back ∧ b.allocated = true := by
      intro b hb
      rcases hb with hb | rfl
      · exact hput.keepMem b hb
      · exact ⟨by simp, rfl⟩
    have hmod := h.gap_mod
    have hbase := hput.rebase _ hkeepFirst
    have hunits' : first.stop + 16 * ((hi - lo) / 16 - units) = hi := by
      rw [hfirst]
      omega
    rcases hbase.freeTail_returns (by omega) hunits' with
      ⟨s', blocks', lists', hreturns, hlayout⟩
    have htags := hlayout.tag_kept (Or.inr rfl)
    have hfirstStart : first.stop = lo + units * 16 := by
      rw [hfirst]
      omega
    rw [hfirstStart] at hreturns
    refine ⟨s₁, s', blocks', lists', hwrite, hread, htagged.headerSize, ?_, ?_, ?_, ?_, ?_⟩
    · rw [if_neg hwhole]
      exact hreturns
    · exact hlayout.restore (fun b hb => Or.inl hb) h₁.kept
    · have hmember := (hlayout.keepMem first (Or.inr rfl)).1
      rw [List.append_nil] at hmember
      exact hmember
    · exact hrecords.congr htags.1 htags.2
    · intro a hlow hhigh
      rw [← hmem a hlow hhigh]
      apply hlayout.kept first (Or.inr rfl)
      · show lo ≤ a
        omega
      · rw [hfirst]
        omega

end Gapped

/-- Shrinking a block keeps the part of the payload that is still asked for, and records the
new size. -/
theorem shrink_returns (h : Layout P checked orig keep s (front ++ block :: back) lists)
    (hallocated : block.allocated = true) (hkeep : ¬ keep block) (hsize : size ≠ 0)
    (hroom : size + 16 < block.units * 16) :
    ∃ s' blocks' lists' units, Returns (fun fuel => shrink P fuel block.addr size s) s' ∧
      Layout P checked orig keep s' blocks' lists' ∧ ⟨block.addr, units, true⟩ ∈ blocks' ∧
      Records s' ⟨block.addr, units, true⟩ size ∧
      ∀ a, block.addr + 8 ≤ a → a < block.addr + 8 + size → s'.mem a = s.mem a := by
  rcases h.move with ⟨middle, hmoved⟩
  rw [List.append_nil] at hmoved
  have htagged := hmoved.tagged block (List.mem_append_right _ List.mem_cons_self)
  rcases hmoved.backTiles with ⟨rfl, hunits, -⟩
  have hgap := hmoved.takeAllocated hallocated hkeep
  have hlimit := hgap.size_le
  have hstop : block.stop = block.addr + 16 * block.units := rfl
  have hheader : (s.tag block.addr).allocated = true := by
    rw [htagged.headerAllocated]
    exact hallocated
  have hread : readTag P s block.addr = .ok (s.tag block.addr) :=
    hgap.readTag_gap le_rfl (by omega)
  have hwrap : (size + 16) % 2 ^ 64 = size + 16 := Nat.mod_eq_of_lt (by omega)
  rcases roundUp_spec hsize with ⟨hmod, hmin, hle, hlt, hpadding⟩
  have hround : roundUp ((size + 16) % 2 ^ 64) =
      ((roundUp (size + 16)).1, (roundUp (size + 16)).2) := by rw [hwrap]
  generalize (roundUp (size + 16)).1 = required at hround hmod hmin hle hlt hpadding
  generalize (roundUp (size + 16)).2 = padding at hround hpadding
  by_cases hsplinter : block.units - required / 16 = 1
  · -- a tail of one unit stays with the block
    have hunits' : (required + 16) / 16 = block.units := by omega
    have hfull : required + 16 = block.units * 16 := by omega
    have hpadding' : true = true ↔ size + 16 ≠ block.units * 16 := by
      simp only [true_iff]
      omega
    rcases hgap.shrinkTo_returns hunits hheader (by omega) hpadding' (Or.inl hstop.symm) with
      ⟨s₁, s', blocks', lists', hwrite, -, -, hsame, hlayout, hmem, hrecords, hpayload⟩
    rw [if_pos hstop.symm] at hsame
    subst hsame
    refine ⟨s', blocks', lists', block.units, Returns.of_eq ?_, hlayout, hmem, hrecords,
      hpayload⟩
    intro fuel
    rw [shrink, hread, ok_bind, hround]
    simp only [htagged.headerSize, if_pos hsplinter]
    rw [hfull, hwrite, ok_bind, Nat.mul_div_cancel _ (by omega), if_neg (lt_irrefl _),
      if_neg (not_not.mpr rfl)]
  · have hexact : required / 16 * 16 = required := by omega
    have hpadding' : padding = true ↔ size + 16 ≠ required / 16 * 16 := by
      rw [hexact]
      exact hpadding
    rcases hgap.shrinkTo_returns (by omega) hheader (by omega) hpadding' (by omega) with
      ⟨s₁, s', blocks', lists', hwrite, hread₁, hsize₁, hrest, hlayout, hmem, hrecords,
        hpayload⟩
    rw [hexact] at hwrite
    refine ⟨s', blocks', lists', required / 16, ?_, hlayout, hmem, hrecords, hpayload⟩
    by_cases hwhole : block.addr + 16 * (required / 16) = block.stop
    · rw [if_pos hwhole] at hrest
      subst hrest
      apply Returns.of_eq
      intro fuel
      have hnot : ¬ required / 16 < block.units := by omega
      rw [shrink, hread, ok_bind, hround]
      simp only [htagged.headerSize, if_neg hsplinter, hwrite, ok_bind]
      rw [if_neg hnot, if_neg (not_not.mpr rfl)]
    · rw [if_neg hwhole] at hrest
      apply hrest.congr
      intro fuel
      have hlt : required / 16 < block.units := by omega
      have hne : block.units - required / 16 ≠ 0 := by omega
      have htail : (block.stop - block.addr) / 16 - required / 16 =
          block.units - required / 16 := by omega
      rw [shrink, hread, ok_bind, hround]
      simp only [htagged.headerSize, if_neg hsplinter, hwrite, ok_bind]
      rw [if_pos hlt, if_pos hne, hread₁, ok_bind, hsize₁, htail]

/-! ## Moving -/

/-- A block of the heap that records a request, and is none of the kept ones. -/
structure Holds (P : Platform) (checked : Prop) (orig : Memory) (keep : Block → Prop)
    (size addr : Nat) (s : Heap) : Prop where
  layout : ∃ blocks lists, Layout P checked orig keep s blocks lists ∧
    ∃ units, ⟨addr, units, true⟩ ∈ blocks ∧ Records s ⟨addr, units, true⟩ size
  fresh : ∀ b, keep b → b.addr ≠ addr

/-- The copy to a new block that is larger than the old one. -/
theorem memcpy_returns (h : Layout P checked orig keep s blocks lists) {units addr count : Nat}
    (hnew : ⟨addr, units, true⟩ ∈ blocks) (hkeepNew : ∀ b, keep b → b.addr ≠ addr)
    (hblock : keep block) (hcount : count + 16 ≤ block.units * 16)
    (hroom : count + 16 ≤ units * 16) :
    ∃ s', memcpy P (addr + 8) block.addr count s = .ok s' ∧
      Layout P checked orig keep s' blocks lists ∧
      s'.tag addr = s.tag addr ∧ s'.tag (addr + 16 * units - 8) = s.tag (addr + 16 * units - 8) ∧
      ∀ j < count, s'.mem (addr + 8 + j) = s.mem (block.addr + j) := by
  have hnewBounds := h.outside (List.mem_append_left [] hnew)
  have hbounds := h.outside (h.keepMem block hblock).1
  have hstop : block.stop = block.addr + 16 * block.units := rfl
  have hnewStop : Block.stop ⟨addr, units, true⟩ = addr + 16 * units := rfl
  rw [hnewStop] at hnewBounds
  dsimp only at hnewBounds
  let s' : Heap := { s with mem := s.mem.copyBytes (addr + 8) block.addr count }
  have hcopied : memcpy P (addr + 8) block.addr count s = .ok s' := by
    unfold memcpy
    split_ifs with hzero hrange
    · show _ = Except.ok { s with mem := s.mem.copyBytes (addr + 8) block.addr count }
      have hsame : s.mem.copyBytes (addr + 8) block.addr count = s.mem := by
        funext a
        exact Memory.copyBytes_of_outside (by omega)
      rw [hsame]
    · rfl
    · omega
  have houtside (a : Nat) (ha : a < addr + 8 ∨ addr + 16 * units - 8 ≤ a) :
      s'.mem a = s.mem a := Memory.copyBytes_of_outside (by omega)
  have htag (w : Nat) (hw : w + 8 ≤ addr + 8 ∨ addr + 16 * units - 8 ≤ w) :
      s'.tag w = s.tag w := by
    apply Heap.tag_congr
    apply Memory.readWord_congr
    intro i hi
    exact houtside _ (by omega)
  have hlayout : Layout P checked orig keep s' blocks lists := by
    rcases List.append_of_mem hnew with ⟨front, back, rfl⟩
    exact h.writePayload rfl (fun hkeep => hkeepNew _ hkeep rfl) rfl rfl houtside
  refine ⟨s', hcopied, hlayout, htag addr (by omega), htag _ (by omega), ?_⟩
  intro j hj
  exact Memory.copyBytes_add hj

/-- Moving to a new block copies as many bytes as the old block records, from its header
on. -/
theorem moved_returns (h : Layout P checked orig keep s blocks lists) (hmem : block ∈ blocks)
    (hallocated : block.allocated = true) (hconsistent : Consistent s block)
    (hkeep : ¬ keep block) (hsafe : MallocSafe P size s) (hsize : size ≠ 0)
    (hgrow : block.units * 16 < size + 16) (hwidth : size + 16 < 2 ^ 64) :
    ∃ s' new, Returns (fun fuel => sfRealloc P fuel (block.addr + 8) size s) (s', new) ∧
      ((new = 0 ∧ MallocReturns P size s s' 0 ∧ ∃ blocks' lists',
          Layout P checked s.mem (fun b => keep b ∨ b = block) s' blocks' lists') ∨
        ∃ addr, new = addr + 8 ∧ Holds P checked orig keep size addr s' ∧
          ∀ j < (s.tag (block.stop - 8)).upper,
            s'.mem (addr + 8 + j) = s.mem (block.addr + j)) := by
  have hkeepBlock : ∀ b, keep b ∨ b = block → b ∈ blocks ++ [] ∧ b.allocated = true := by
    intro b hb
    rcases hb with hb | rfl
    · exact h.keepMem b hb
    · exact ⟨List.mem_append_left _ hmem, hallocated⟩
  have hbase := h.rebase _ hkeepBlock
  rcases sfMalloc_returns hbase hsafe with ⟨s₁, ptr, ⟨bound, hmalloc⟩, hanswer⟩
  have hwrap : (size + 16) % 2 ^ 64 = size + 16 := Nat.mod_eq_of_lt hwidth
  rcases hanswer with ⟨rfl, hlayout⟩ | ⟨addr, room, rfl, hplaced⟩
  · refine ⟨s₁, 0, ⟨bound, ?_⟩, Or.inl ⟨rfl, ⟨bound, hmalloc⟩, hlayout⟩⟩
    intro fuel hfuel
    show sfRealloc P fuel (block.addr + 8) size s = _
    rw [sfRealloc_eq h hmem hallocated hconsistent hsize fuel, hwrap, if_pos hgrow,
      hmalloc fuel fuel hfuel hfuel, ok_bind]
    exact if_pos rfl
  · rcases hplaced.layout with ⟨blocks₁, lists₁, h₁, units, hnew, hrecords, -⟩
    have htags₁ := h₁.tag_kept (Or.inr rfl)
    have hroom : size + 16 ≤ units * 16 := hrecords.room
    have hfits := hconsistent.fits
    rcases memcpy_returns h₁ hnew hplaced.fresh (Or.inr rfl) hfits (by omega) with
      ⟨s₂, hcopy, h₂, hheader₂, hfooter₂, hcopied⟩
    -- the old block is freed while the new one is kept
    let new : Block := ⟨addr, units, true⟩
    have hrecords₂ : Records s₂ new size := hrecords.congr hheader₂ hfooter₂
    have htags₂ := h₂.tag_kept (Or.inr rfl)
    have hold := h₂.keepMem block (Or.inr rfl)
    rw [List.append_nil] at hold
    have hkeepNew : ∀ b, keep b ∨ b = new → b ∈ blocks₁ ++ [] ∧ b.allocated = true := by
      intro b hb
      rcases hb with hb | rfl
      · exact h₂.keepMem b (Or.inl hb)
      · exact ⟨List.mem_append_left _ hnew, rfl⟩
    have hkeepOld : ¬ (keep block ∨ block = new) := by
      rintro (hb | heq)
      · exact hkeep hb
      · exact hplaced.fresh block (Or.inr rfl) (by rw [heq])
    rcases List.append_of_mem hold.1 with ⟨front, back, rfl⟩
    rcases sfFree_returns (h₂.rebase _ hkeepNew) hold.2
        (hconsistent.congr htags₂.1 htags₂.2) hkeepOld with
      ⟨s₃, ⟨bound', hfree⟩, h₃, -⟩
    have htags₃ := h₃.tag_kept (Or.inr rfl)
    have hmember := (h₃.keepMem new (Or.inr rfl)).1
    rw [List.append_nil] at hmember
    have hlayout := h₃.restore (fun b hb => Or.inl hb) (fun b hb a hlow hhigh =>
      (h₂.kept b (Or.inl hb) a hlow hhigh).trans (h.kept b hb a hlow hhigh))
    refine ⟨s₃, addr + 8, ⟨max bound bound', ?_⟩, Or.inr ⟨addr, rfl, ⟨⟨_, _, hlayout,
      units, hmember, hrecords₂.congr htags₃.1 htags₃.2⟩, ?_⟩, ?_⟩⟩
    · intro fuel hfuel
      have hbounds := h₁.outside (h₁.keepMem block (Or.inr rfl)).1
      have hstop : block.stop = block.addr + 16 * block.units := rfl
      have hfooterIn : InHeap P s₁ (block.stop - 8) := ⟨by omega, by omega⟩
      have hfree := hfree fuel (by omega)
      beta_reduce at hfree
      show sfRealloc P fuel (block.addr + 8) size s = _
      rw [sfRealloc_eq h hmem hallocated hconsistent hsize fuel, hwrap, if_pos hgrow,
        hmalloc fuel fuel (by omega) (by omega), ok_bind]
      dsimp only
      rw [if_neg (Nat.succ_ne_zero _), readTag_eq hfooterIn, ok_bind, htags₁.2, hcopy, ok_bind,
        hfree, ok_bind]
    · intro b hb
      exact hplaced.fresh b (Or.inl hb)
    · intro j hj
      rw [h₃.kept new (Or.inr rfl) (addr + 8 + j) (show addr ≤ addr + 8 + j by omega)
        (show addr + 8 + j < addr + 16 * units by omega), hcopied j hj]
      exact h₁.kept block (Or.inr rfl) _ (by omega)
        (show block.addr + j < block.addr + 16 * block.units by omega)

end SystemFundamentals.Sfmm
