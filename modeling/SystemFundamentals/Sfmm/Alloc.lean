import SystemFundamentals.Sfmm.Heap

/-!
# sf_malloc, sf_free and sf_realloc

The three calls of {lit}`hw3/src/sfmm.c`, statement by statement.  Every read goes to
memory again, as in the source, so that stale link words act as they do there.
Consecutive assignments to bit-fields of one word are one {lit}`writeTag`.

The loops take fuel, and the three calls return {lit}`outOfFuel` where it does not
suffice.
-/

namespace SystemFundamentals.Sfmm

open Library

variable (P : Platform)

/-! ## Lists -/

/-- Unlinking the block that {lit}`sf_malloc` has chosen from list {lit}`i`. -/
def unlinkChosen (i : Fin 4) (block : Nat) (s : Heap) : Except Stop Heap := do
  let prev ← load P s (block + 16)
  let next ← load P s (block + 8)
  let s ← if prev ≠ 0 then store P s (prev + 8) next else .ok (s.setHead i next)
  let next ← load P s (block + 8)
  if next ≠ 0 then
    let prev ← load P s (block + 16)
    let s ← store P s (next + 16) prev
    let s ← store P s (block + 8) 0
    store P s (block + 16) 0
  else store P s (block + 16) 0

/-- The unlinking of a fresh remainder in {lit}`sf_malloc`.  The remainder is in no
list, and its link words are what the payload left there. -/
def unlinkRemainder (i : Fin 4) (block : Nat) (s : Heap) : Except Stop Heap := do
  let prev ← load P s (block + 16)
  let next ← load P s (block + 8)
  let s ← if prev ≠ 0 then do
      let s ← store P s (prev + 8) next
      store P s (block + 16) 0
    else .ok (s.setHead i next)
  let next ← load P s (block + 8)
  if next ≠ 0 then
    let prev ← load P s (block + 16)
    let s ← store P s (next + 16) prev
    store P s (block + 8) 0
  else .ok s

/-- Unlinking a block that is merged with a neighbour.  The list is looked up by the
size that the header holds at this moment. -/
def unlinkMerged (block : Nat) (s : Heap) : Except Stop Heap := do
  let prev ← load P s (block + 16)
  let next ← load P s (block + 8)
  let s ← if prev ≠ 0 then store P s (prev + 8) next
    else do
      let header ← readTag P s block
      let i ← listIndex (header.blockSize * 16)
      let s := s.setHead i next
      if s.head i ≠ 0 then store P s (s.head i + 16) 0 else .ok s
  let next ← load P s (block + 8)
  if next ≠ 0 then
    let prev ← load P s (block + 16)
    store P s (next + 16) prev
  else .ok s

/-- Pushing a block to the list of its size. -/
def insertHead (block : Nat) (s : Heap) : Except Stop Heap := do
  let header ← readTag P s block
  let i ← listIndex (header.blockSize * 16)
  let s ← store P s (block + 8) (s.head i)
  let s ← if s.head i ≠ 0 then store P s (s.head i + 16) block else .ok s
  .ok (s.setHead i block)

/-! ## sf_malloc -/

/-- The first page: one free block in the last list whose minimum is below a page. -/
def firstPage (s : Heap) : Except Stop Heap := do
  -- the result of this sf_sbrk is not looked at
  let s := match sfSbrk P s with
    | some (s, _) => s
    | none => s
  match (List.finRange 4).reverse.find? fun i => listMin i < PAGE_SZ with
  | none => .ok s
  | some i =>
      let s ← writeTag P s P.heapStart fun header =>
        { header with
          allocated := false, padded := false, twoZeroes := 0, blockSize := PAGE_SZ / 16 }
      let s ← store P s (P.heapStart + 8) 0
      let s ← store P s (P.heapStart + 16) 0
      let header ← readTag P s P.heapStart
      let s ← writeTag P s (P.heapStart + header.blockSize * 16 - 8) fun _ =>
        { allocated := false, padded := false, twoZeroes := 0, blockSize := PAGE_SZ / 16
          upper := 4096 }
      .ok (s.setHead i P.heapStart)

/-- The first thing {lit}`sf_malloc` does with a heap that is smaller than a page. -/
def openHeap (s : Heap) : Except Stop Heap :=
  if s.heapEnd - P.heapStart < PAGE_SZ then firstPage P s else .ok s

/-- The variables of {lit}`sf_malloc` during the search: {lit}`required_size`,
{lit}`padding` and {lit}`allocated_block`. -/
structure Search where
  heap : Heap
  required : Nat
  padding : Bool
  allocatedBlock : Nat

/-- Taking the block that {lit}`sf_malloc` has chosen off its list.  It is marked as
allocated, and its old footer is cleared. -/
def claimBlock (i : Fin 4) (block : Nat) (s : Heap) : Except Stop Heap := do
  let s ← unlinkChosen P i block s
  let s ← writeTag P s block fun header => { header with allocated := true }
  let header ← readTag P s block
  store P s (block + header.blockSize * 16 - 8) 0

/-- The remainder of a split block: header, footer and list. -/
def placeRemainder (i : Fin 4) (second secondSize : Nat) (s : Heap) : Except Stop Heap := do
  let s ← writeTag P s second fun header =>
    { header with allocated := false, blockSize := secondSize }
  let header ← readTag P s second
  let s ← writeTag P s (second + header.blockSize * 16 - 8) fun footer =>
    { footer with allocated := false, blockSize := secondSize }
  let s ← unlinkRemainder P i second s
  insertHead P second s

/-- The size in the header and the footer of the block that is handed out. -/
def writeAllocated (size units : Nat) (padding : Bool) (block : Nat) (s : Heap) :
    Except Stop Heap := do
  let s ← writeTag P s block fun header =>
    { header with blockSize := units, padded := padding }
  let header ← readTag P s block
  writeTag P s (block + header.blockSize * 16 - 8) fun footer =>
    { footer with
      allocated := true, padded := padding, blockSize := header.blockSize, upper := size }

/-- The body of the search loop for a block of list {lit}`i` that fits. -/
def place (size : Nat) (i : Fin 4) (block : Nat) (search : Search) : Except Stop Search := do
  let s ← claimBlock P i block search.heap
  let header ← readTag P s block
  let splinter := header.blockSize - search.required / 16 = 1
  let required := if splinter then search.required + 16 else search.required
  let padding := if splinter then true else search.padding
  let secondSize :=
    if required / 16 < header.blockSize then header.blockSize - required / 16 else 0
  let s ← writeAllocated P size (required / 16) padding block s
  let s ← if secondSize ≠ 0 then do
      let header ← readTag P s block
      placeRemainder P i (block + header.blockSize * 16) secondSize s
    else .ok s
  .ok ⟨s, required, padding, block + 8⟩

/-- Whether a block fits. -/
def fits (required : Nat) (header : Tag) : Bool :=
  !header.allocated && decide (required / 16 ≤ header.blockSize)

/-- The walk along list {lit}`i`.  It does not move on from the block it has just
allocated, and leaves the loop by way of that block's {lit}`next`. -/
def walk (size : Nat) (i : Fin 4) : Nat → Nat → Search → Except Stop Search
  | 0, _, _ => .error .outOfFuel
  | fuel + 1, block, search =>
      if block ≠ 0 then do
        let header ← readTag P search.heap block
        if fits search.required header then
          let search ← place P size i block search
          walk size i fuel block search
        else
          let next ← load P search.heap (block + 8)
          walk size i fuel next search
      else .ok search

/-- The loop over the lists. -/
def searchLists (fuel size : Nat) : List (Fin 4) → Search → Except Stop Search
  | [], search => .ok search
  | i :: lists, search =>
      if search.allocatedBlock = 0 then
        if search.required < listMax i then do
          let search ← walk P size i fuel (search.heap.head i) search
          searchLists fuel size lists search
        else searchLists fuel size lists search
      else .ok search

/-- {lit}`a - b` on pointers. -/
def subAddress (a b : Nat) : Nat := (a + 2 ^ 64 - b) % 2 ^ 64

/-- Merging a new page with the free block before it. -/
def mergePage (startPage prevCoalesce : Nat) (s : Heap) : Except Stop Heap := do
  let page ← readTag P s startPage
  let s ← writeTag P s prevCoalesce fun header =>
    { header with blockSize := header.blockSize + page.blockSize }
  unlinkMerged P prevCoalesce s

/-- Merging a new page with the free blocks before it. -/
def coalesceBackward : Nat → Nat → Nat → Heap → Except Stop (Heap × Nat)
  | 0, _, _, _ => .error .outOfFuel
  | fuel + 1, startPage, prevCoalesce, s =>
      if P.heapStart < prevCoalesce then do
        let header ← readTag P s prevCoalesce
        if !header.allocated then
          let s ← mergePage P startPage prevCoalesce s
          let footer ← readTag P s (prevCoalesce - 8)
          coalesceBackward fuel prevCoalesce
            (subAddress prevCoalesce (footer.blockSize * 16)) s
        else .ok (s, startPage)
      else .ok (s, startPage)

/-- The allocated bit and the footer of a merged page. -/
def closePage (startPage : Nat) (s : Heap) : Except Stop Heap := do
  let s ← writeTag P s startPage fun header => { header with allocated := false }
  let header ← readTag P s startPage
  writeTag P s (s.heapEnd - 8) fun footer =>
    { footer with allocated := false, blockSize := header.blockSize, upper := 0 }

/-- What {lit}`sf_malloc` does with a new page. -/
def addPage (fuel page : Nat) (s : Heap) : Except Stop Heap := do
  let s ← writeTag P s page fun header =>
    { header with blockSize := (s.heapEnd - page) / 16 }
  let footer ← readTag P s (page - 8)
  let (s, startPage) ←
    coalesceBackward P fuel page (subAddress page (footer.blockSize * 16)) s
  let s ← closePage P startPage s
  insertHead P startPage s

/-- {lit}`required_size` rounded up to a multiple of 16, and {lit}`padding`. -/
def roundUp (required : Nat) : Nat × Bool :=
  if required % 16 ≠ 0 then (required + (16 - required % 16), true) else (required, false)

/-- {lit}`sf_malloc`, with fuel for its loops and for its recursion. -/
def sfMalloc (fuel : Nat) : Nat → Nat → Heap → Except Stop (Heap × Nat)
  | 0, _, _ => .error .outOfFuel
  | calls + 1, size, s =>
      if size = 0 ∨ PAGE_SZ * 4 < size then .ok ({ s with sfErrno := .EINVAL }, 0)
      else do
        let s ← openHeap P { s with sfErrno := .zero }
        let search ← searchLists P fuel size (List.finRange 4)
          ⟨s, (roundUp (size + 16)).1, (roundUp (size + 16)).2, 0⟩
        if search.allocatedBlock = 0 then
          match sfSbrk P search.heap with
          | none => .ok ({ search.heap with sfErrno := .ENOMEM }, 0)
          | some (s, page) =>
              let s ← addPage P fuel page s
              sfMalloc fuel calls size s
        else .ok (search.heap, search.allocatedBlock)

/-! ## sf_free -/

/-- The consistency checks on the header and the footer of a block. -/
def checkTags (header footer : Tag) : Except Stop Unit :=
  if !footer.allocated || footer.padded != header.padded then .error .abort
  else if footer.upper + 16 ≠ header.blockSize * 16 ∧ !header.padded then .error .abort
  else if header.blockSize * 16 < footer.upper + 16 then .error .abort
  else if footer.upper + 16 = header.blockSize * 16 ∧ header.padded then .error .abort
  else .ok ()

/-- A pointer must lie between the ends of the heap. -/
def checkBounds (s : Heap) (address : Nat) : Except Stop Unit :=
  if address < P.heapStart ∨ s.heapEnd < address then .error .abort else .ok ()

/-- Merging a freed block with the free blocks behind it. -/
def coalesceForward : Nat → Nat → Nat → Heap → Except Stop Heap
  | 0, _, _, _ => .error .outOfFuel
  | fuel + 1, freed, nextCoalesce, s =>
      if nextCoalesce < s.heapEnd then do
        let header ← readTag P s nextCoalesce
        if !header.allocated then
          let s ← writeTag P s freed fun freed =>
            { freed with blockSize := freed.blockSize + header.blockSize }
          let s ← unlinkMerged P nextCoalesce s
          let header ← readTag P s nextCoalesce
          coalesceForward fuel freed (nextCoalesce + header.blockSize * 16) s
        else .ok s
      else .ok s

/-- The last part of {lit}`sf_free`: the links, the footer and the list. -/
def pushFreed (freed : Nat) (s : Heap) : Except Stop Heap := do
  let s ← store P s (freed + 8) 0
  let s ← store P s (freed + 16) 0
  let header ← readTag P s freed
  let s ← writeTag P s (freed + header.blockSize * 16 - 8) fun footer =>
    { footer with allocated := false, blockSize := header.blockSize, upper := 0 }
  insertHead P freed s

/-- {lit}`sf_free`. -/
def sfFree (fuel ptr : Nat) (s : Heap) : Except Stop Heap := do
  let freed := ptr - 8
  checkBounds P s freed
  let header ← readTag P s freed
  if !header.allocated then .error .abort
  else
    let s ← writeTag P s freed fun header => { header with allocated := false }
    let footerAddress := freed + header.blockSize * 16 - 8
    checkBounds P s footerAddress
    let footer ← readTag P s footerAddress
    checkTags header footer
    let s ← writeTag P s footerAddress fun footer => { footer with allocated := false }
    let header ← readTag P s freed
    let s ← coalesceForward P fuel freed (freed + header.blockSize * 16) s
    pushFreed P freed s

/-! ## sf_realloc -/

/-- {lit}`memcpy`. -/
def memcpy (target source count : Nat) (s : Heap) : Except Stop Heap :=
  if count = 0 then .ok s
  else if P.heapStart ≤ target ∧ target + count ≤ s.heapEnd ∧
      P.heapStart ≤ source ∧ source + count ≤ s.heapEnd then
    .ok { s with mem := s.mem.copyBytes target source count }
  else .error .segfault

/-- The header, the copy and the footer of a block that shrinks. -/
def writeShrunk (size required : Nat) (padding : Bool) (block : Nat) (s : Heap) :
    Except Stop Heap := do
  let s ← writeTag P s block fun header =>
    { header with blockSize := required / 16, padded := padding }
  let s ← memcpy P block block size s
  let header ← readTag P s block
  writeTag P s (block + required - 8) fun _ =>
    { allocated := true, padded := padding, twoZeroes := 0
      blockSize := header.blockSize, upper := size }

/-- What is too much becomes an allocated block, which is freed. -/
def freeTail (fuel second secondSize : Nat) (s : Heap) : Except Stop Heap := do
  let s ← writeTag P s second fun header =>
    { header with allocated := true, blockSize := secondSize, padded := false }
  let header ← readTag P s second
  let s ← writeTag P s (second + header.blockSize * 16 - 8) fun footer =>
    { footer with
      allocated := true, blockSize := secondSize, padded := false
      upper := secondSize * 16 - 16 }
  sfFree P fuel (second + 8) s

/-- The branch of {lit}`sf_realloc` that keeps the block and frees what is too much.
{lit}`required_size` is an {lit}`int`; in this branch the sum is below the block size. -/
def shrink (fuel block size : Nat) (s : Heap) : Except Stop Heap := do
  let header ← readTag P s block
  let (required, padding) := roundUp ((size + 16) % 2 ^ 64)
  let splinter := header.blockSize - required / 16 = 1
  let required' := if splinter then required + 16 else required
  let padding := if splinter then true else padding
  let secondSize :=
    if required' / 16 < header.blockSize then header.blockSize - required' / 16 else 0
  let s ← writeShrunk P size required' padding block s
  if secondSize ≠ 0 then
    let header ← readTag P s block
    freeTail P fuel (block + header.blockSize * 16) secondSize s
  else .ok s

/-- {lit}`sf_realloc`.  The sum {lit}`size + 16` wraps at the width of
{lit}`size_t`. -/
def sfRealloc (fuel ptr size : Nat) (s : Heap) : Except Stop (Heap × Nat) := do
  if size = 0 then
    let s ← sfFree P fuel ptr s
    .ok (s, 0)
  else
    let block := ptr - 8
    checkBounds P s block
    let header ← readTag P s block
    if !header.allocated then .error .abort
    else
      let footerAddress := block + header.blockSize * 16 - 8
      checkBounds P s footerAddress
      let footer ← readTag P s footerAddress
      checkTags header footer
      let needed := (size + 16) % 2 ^ 64
      if header.blockSize * 16 < needed then
        let (s, new) ← sfMalloc P fuel fuel size s
        if new = 0 then .ok (s, 0)
        else
          let footer ← readTag P s footerAddress
          -- the copy starts at the header of the old block
          let s ← memcpy P new block footer.upper s
          let s ← sfFree P fuel (block + 8) s
          .ok (s, new)
      else if needed < header.blockSize * 16 then
        let s ← shrink P fuel block size s
        .ok (s, block + 8)
      else .ok (s, block + 8)

end SystemFundamentals.Sfmm
