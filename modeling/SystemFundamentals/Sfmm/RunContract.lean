import SystemFundamentals.Sfmm.Representation
import SystemFundamentals.Sfmm.Runs
import SystemFundamentals.Sfmm.Steady

/-!
# What the allocator promises over whole runs

The heap should stay tiled with the free blocks in the lists of their sizes, live payloads
should stay apart and untouched, and every call of {lit}`sf_malloc` should return.  All
three hold as long as the searches end well.  None of them holds in every run: the
remainder of a split block is unlinked by way of the words that its payload has left, and a
page that is merged keeps its backward link.

Main results:

- Theorem {lit}`reachable_represented`: the blocks tile the heap and are in their lists.
- Theorem {lit}`reachable_isolated`: live payloads are apart, and calls do not change those
  they are not given.
- Theorem {lit}`reachable_terminating`: the lists end and {lit}`sf_malloc` returns.
-/

namespace SystemFundamentals.Sfmm

open Library Library.LinkedList

/-! ## The three contracts -/

/-- The payloads of the live pointers lie in the heap and do not overlap. -/
structure Apart (P : Platform) (s : Session) : Prop where
  inside : ∀ a ∈ s.live, P.heapStart ≤ a.ptr ∧ a.ptr + a.requested ≤ s.heap.heapEnd
  disjoint : s.live.Pairwise fun a b => a.ptr + a.requested ≤ b.ptr ∨ b.ptr + b.requested ≤ a.ptr

/-- Every list ends. -/
def ListsEnd (s : Heap) : Prop := ∀ i, ∃ n, s.next^[n] (s.head i) = 0

variable {P : Platform} {s : Heap} {live : List Allocation} {blocks : List Block}
  {lists : Fin 4 → List Nat}

theorem Holding.represents (h : Holding P s live blocks lists) : Represents P s blocks lists :=
  h.layout.represents

theorem Holding.apart {s : Session} (h : Holding P s.heap s.live blocks lists) : Apart P s where
  inside a ha := by
    rcases h.owned a ha with ⟨block, howns⟩
    have hbounds := h.layout.frontTiles.bounds howns.mem
    have hptr := howns.ptr_eq
    have hroom := howns.room
    unfold Block.stop at hbounds
    omega
  disjoint := by
    refine (List.pairwise_map.mp h.nodup).imp_of_mem ?_
    intro a b ha hb hne
    rcases h.owned a ha with ⟨block, howns⟩
    rcases h.owned b hb with ⟨block', howns'⟩
    have hptr := howns.ptr_eq
    have hptr' := howns'.ptr_eq
    have hroom := howns.room
    have hroom' := howns'.room
    rcases h.layout.frontTiles.disjoint howns.mem howns'.mem with rfl | hdisjoint
    · exact absurd (hptr.trans hptr'.symm) hne
    · unfold Block.stop at hdisjoint
      omega

/-! ## The runs of safe calls -/

/-- In every run of safe calls the blocks tile the heap and are in their lists. -/
theorem reachable_represented {s : Session} (h : (safeAllocator P).Reachable s) :
    Represented P s.heap := by
  rcases reachable_sound h with ⟨blocks, lists, h⟩
  exact ⟨blocks, lists, h.represents⟩

/-- In every run of safe calls the payloads are apart, and a safe call does not change
those it is not given. -/
theorem reachable_isolated {s : Session} (h : (safeAllocator P).Reachable s) :
    Apart P s ∧ ∀ call t, CallSafe P s call → Serves P s call t → Undisturbed s call t := by
  have hsound := reachable_sound h
  refine ⟨?_, ?_⟩
  · rcases hsound with ⟨blocks, lists, h⟩
    exact h.apart
  · intro call t hsafe hserves
    exact (hsound.call hsafe hserves).2

/-- In every run of safe calls the lists end, and a safe call of {lit}`sf_malloc`
returns. -/
theorem reachable_terminating {s : Session} (h : (safeAllocator P).Reachable s) :
    ListsEnd s.heap ∧
      ∀ size < 2 ^ 64, CallSafe P s (.malloc size) → ∃ t, Serves P s (.malloc size) t := by
  rcases reachable_sound h with ⟨blocks, lists, h⟩
  constructor
  · intro i
    exact ⟨_, (h.layout.linked i).iterate⟩
  · intro size hlt hsafe
    rcases h.malloc hsafe with ⟨heap, ptr, hreturns, -⟩
    exact ⟨_, .malloc hlt hreturns⟩

/-! ## Runs on the heap of the tests -/

/-- The empty heap, in a memory of zeroes. -/
def blank : Heap := ⟨fun _ => 0, 65536, fun _ => 0, .zero⟩

/-- The heap after {lit}`sf_malloc`. -/
def mallocHeap (size : Nat) (s : Heap) : Heap :=
  match sfMalloc fourPages 20 20 size s with
  | .ok (s', _) => s'
  | .error _ => s

/-- The heap after {lit}`sf_free`. -/
def freeHeap (ptr : Nat) (s : Heap) : Heap :=
  match sfFree fourPages 20 ptr s with
  | .ok s' => s'
  | .error _ => s

theorem mallocHeap_returns {size ptr : Nat} {s : Heap}
    (h : (sfMalloc fourPages 20 20 size s).toOption.map Prod.snd = some ptr) :
    MallocReturns fourPages size s (mallocHeap size s) ptr := by
  unfold mallocHeap
  cases hcall : sfMalloc fourPages 20 20 size s with
  | error stop =>
      rw [hcall] at h
      cases h
  | ok answer =>
      rcases answer with ⟨s', ptr'⟩
      rw [hcall] at h
      rw [← Option.some.inj h]
      exact mallocReturns_of_eq hcall

theorem freeHeap_returns {ptr : Nat} {s : Heap}
    (h : (sfFree fourPages 20 ptr s).toOption.isSome = true) :
    Returns (fun fuel => sfFree fourPages fuel ptr s) (freeHeap ptr s) := by
  unfold freeHeap
  cases hcall : sfFree fourPages 20 ptr s with
  | error stop =>
      rw [hcall] at h
      cases h
  | ok s' => exact (steady_sfFree ptr s).returns hcall

theorem blank_empty : (allocator fourPages).initial ⟨blank, []⟩ :=
  ⟨rfl, fun _ => rfl, rfl⟩

/-- A request that is served. -/
theorem mallocHeap_serves {s : Heap} (live : List Allocation) {size ptr : Nat}
    (hsize : size < 2 ^ 64)
    (hcall : (sfMalloc fourPages 20 20 size s).toOption.map Prod.snd = some ptr)
    (hptr : ptr ≠ 0) :
    Serves fourPages ⟨s, live⟩ (.malloc size) ⟨mallocHeap size s, ⟨ptr, size⟩ :: live⟩ := by
  have hserves := Serves.malloc (s := ⟨s, live⟩) hsize (mallocHeap_returns hcall)
  rw [afterMalloc, if_neg hptr] at hserves
  exact hserves

theorem reachable_malloc {s : Heap} {live : List Allocation} {size ptr : Nat}
    (h : (allocator fourPages).Reachable ⟨s, live⟩) (hsize : size < 2 ^ 64)
    (hcall : (sfMalloc fourPages 20 20 size s).toOption.map Prod.snd = some ptr)
    (hptr : ptr ≠ 0) :
    (allocator fourPages).Reachable ⟨mallocHeap size s, ⟨ptr, size⟩ :: live⟩ :=
  h.step (.call (mallocHeap_serves live hsize hcall hptr))

/-- A block that is freed on the way. -/
theorem reachable_free {s : Heap} {live : List Allocation} {a : Allocation}
    (h : (allocator fourPages).Reachable ⟨s, live⟩) (ha : a ∈ live)
    (hcall : (sfFree fourPages 20 a.ptr s).toOption.isSome = true) :
    (allocator fourPages).Reachable ⟨freeHeap a.ptr s, live.erase a⟩ :=
  h.step (.call (.free (s := ⟨s, live⟩) ha (freeHeap_returns hcall)))

/-! ### Safe calls -/

/-- The heap with its first page. -/
def pageHeap : Heap :=
  match openHeap fourPages blank with
  | .ok s => s
  | .error _ => blank

/-- The heap after a request of 64 bytes. -/
def smallHeap : Heap := mallocHeap 64 blank

/-- The heap gets its first page, and the page serves a request of 64 bytes. -/
theorem smallHeap_values :
    (openHeap fourPages blank).toOption.isSome = true ∧
      (firstFit pageHeap (roundUp (64 + 16)).1 = some (3, 65536) ∧
        PlaceSafe pageHeap 3 65536 (roundUp (64 + 16)).1) ∧
          (sfMalloc fourPages 20 20 64 blank).toOption.map Prod.snd = some 65544 := by
  decide +kernel

theorem openHeap_blank : openHeap fourPages blank = .ok pageHeap := by
  have hsome := smallHeap_values.1
  unfold pageHeap
  cases hopen : openHeap fourPages blank with
  | error stop =>
      rw [hopen] at hsome
      cases hsome
  | ok s => rfl

theorem smallHeap_reachable :
    (safeAllocator fourPages).Reachable ⟨smallHeap, [⟨65544, 64⟩]⟩ := by
  rcases smallHeap_values with ⟨-, hfit, hcall⟩
  have hsafe : MallocSafe fourPages 64 blank :=
    mallocSafe_of_attempt openHeap_blank ⟨3, 65536, hfit⟩
  have hserves : Serves fourPages ⟨blank, []⟩ (.malloc 64) ⟨smallHeap, [⟨65544, 64⟩]⟩ :=
    mallocHeap_serves [] (by decide) hcall (by decide)
  have hempty : (safeAllocator fourPages).Reachable ⟨blank, []⟩ := .initial blank_empty
  exact hempty.step ⟨show EventSafe fourPages ⟨blank, []⟩ (.call (.malloc 64)) from hsafe,
    .call hserves⟩

theorem smallHeap_represented :
    (safeAllocator fourPages).Reachable ⟨smallHeap, [⟨65544, 64⟩]⟩ ∧
      Represented fourPages smallHeap :=
  ⟨smallHeap_reachable, reachable_represented smallHeap_reachable⟩

theorem smallHeap_isolated :
    (safeAllocator fourPages).Reachable ⟨smallHeap, [⟨65544, 64⟩]⟩ ∧
      Apart fourPages ⟨smallHeap, [⟨65544, 64⟩]⟩ :=
  ⟨smallHeap_reachable, (reachable_isolated smallHeap_reachable).1⟩

theorem smallHeap_terminating :
    (safeAllocator fourPages).Reachable ⟨smallHeap, [⟨65544, 64⟩]⟩ ∧ ListsEnd smallHeap :=
  ⟨smallHeap_reachable, (reachable_terminating smallHeap_reachable).1⟩

/-! ### A block in no list -/

/-- The heap after a request of 8000 bytes. -/
def largeHeap : Heap := mallocHeap 8000 blank

theorem largeHeap_values :
    (sfMalloc fourPages 20 20 8000 blank).toOption.map Prod.snd = some 69640 ∧
      (largeHeap.heapEnd = 77824 ∧ largeHeap.head 3 = 0) ∧
        (largeHeap.tag fourPages.heapStart).allocated = false ∧
          (largeHeap.tag fourPages.heapStart).blockSize = 256 := by
  decide +kernel

theorem largeHeap_reachable :
    (allocator fourPages).Reachable ⟨largeHeap, [⟨69640, 8000⟩]⟩ :=
  reachable_malloc (.initial blank_empty) (by decide) largeHeap_values.1 (by decide)

/-- After a request of 8000 bytes the first page is free, and in no list. -/
theorem largeHeap_not_represented :
    (allocator fourPages).Reachable ⟨largeHeap, [⟨69640, 8000⟩]⟩ ∧
      ¬ Represented fourPages largeHeap := by
  refine ⟨largeHeap_reachable, ?_⟩
  rintro ⟨blocks, lists, h⟩
  rcases largeHeap_values with ⟨-, ⟨hend, hhead⟩, hheader⟩
  rcases h.tiles.exists_cons (by rw [hend]; decide) with ⟨first, rest, rfl, haddr⟩
  have htags := h.tags first List.mem_cons_self
  have hfree : first.allocated = false := by
    rw [← htags.headerAllocated, haddr]
    exact hheader.1
  have hunits : first.units = 256 := by
    rw [← htags.headerSize, haddr]
    exact hheader.2
  have hlisted : first.addr ∈ lists 3 := by
    refine (h.listed 3 first.addr).mpr ⟨first, List.mem_cons_self, hfree, rfl, ?_⟩
    rw [hunits]
    decide
  rw [(h.linked 3).head_eq_null_iff.mp hhead] at hlisted
  exact List.not_mem_nil hlisted

/-! ### A payload that is overwritten -/

/-- A byte that is written on the way. -/
theorem reachable_write {s : Heap} {live : List Allocation} (a : Allocation) (offset : Nat)
    (byte : UInt8) (h : (allocator fourPages).Reachable ⟨s, live⟩) (ha : a ∈ live)
    (hoffset : offset < a.requested) :
    (allocator fourPages).Reachable ⟨s.setByte (a.ptr + offset) byte, live⟩ :=
  h.step (.write (s := ⟨s, live⟩) byte ha hoffset)

/-- The heap after requests of 64 and 16 bytes. -/
def pairHeap : Heap := mallocHeap 16 (mallocHeap 64 blank)

/-- Then the client has written to both payloads and freed the first block. -/
def noisyHeap : Heap :=
  freeHeap 65544
    (((pairHeap.setByte (65544 + 40) 0x50).setByte (65544 + 42) 1).setByte 65624 7)

/-- The request after that is served, and clears the byte at the other payload. -/
theorem noisyHeap_values :
    ((sfMalloc fourPages 20 20 16 smallHeap).toOption.map Prod.snd = some 65624 ∧
      (sfFree fourPages 20 65544 (((pairHeap.setByte (65544 + 40) 0x50).setByte (65544 + 42)
        1).setByte 65624 7)).toOption.isSome = true) ∧
      (sfMalloc fourPages 20 20 16 noisyHeap).toOption.map Prod.snd = some 65544 ∧
        noisyHeap.mem 65624 = 7 ∧ (mallocHeap 16 noisyHeap).mem 65624 = 0 := by
  decide +kernel

theorem noisyHeap_reachable : (allocator fourPages).Reachable ⟨noisyHeap, [⟨65624, 16⟩]⟩ := by
  rcases noisyHeap_values.1 with ⟨hsecondCall, hfreeCall⟩
  have hfirst : (allocator fourPages).Reachable ⟨smallHeap, [⟨65544, 64⟩]⟩ :=
    reachable_malloc (.initial blank_empty) (by decide) smallHeap_values.2.2 (by decide)
  have hpair : (allocator fourPages).Reachable ⟨pairHeap, [⟨65624, 16⟩, ⟨65544, 64⟩]⟩ :=
    reachable_malloc hfirst (by decide) hsecondCall (by decide)
  have hlow := reachable_write ⟨65544, 64⟩ 40 0x50 hpair (by decide) (by decide)
  have hhigh := reachable_write ⟨65544, 64⟩ 42 1 hlow (by decide) (by decide)
  have hsecond := reachable_write ⟨65624, 16⟩ 0 7 hhigh (by decide) (by decide)
  exact reachable_free (a := ⟨65544, 64⟩) hsecond (by decide) hfreeCall

/-- The bytes that the client has left in a freed payload lead the next request to the
payload of another block. -/
theorem noisyHeap_not_isolated :
    (allocator fourPages).Reachable ⟨noisyHeap, [⟨65624, 16⟩]⟩ ∧
      ∃ t, Serves fourPages ⟨noisyHeap, [⟨65624, 16⟩]⟩ (.malloc 16) t ∧
        ¬ Undisturbed ⟨noisyHeap, [⟨65624, 16⟩]⟩ (.malloc 16) t := by
  rcases noisyHeap_values.2 with ⟨hcall, hbytes⟩
  have hserves := mallocHeap_serves [⟨65624, 16⟩] (by decide) hcall (by decide)
  refine ⟨noisyHeap_reachable, _, hserves, ?_⟩
  intro hsame
  have hkept := hsame ⟨65624, 16⟩ List.mem_cons_self (by simp [Call.given]) 0 (by decide)
  dsimp only at hkept
  rw [Nat.add_zero, hbytes.1, hbytes.2] at hkept
  exact absurd hkept (by decide)

/-! ### A list that does not end -/

/-- A walk does not leave a block that is its own successor and does not fit. -/
theorem walk_cycle (search : Search) {size block : Nat} {i : Fin 4} (hne : block ≠ 0)
    (hheader : InHeap P search.heap block) (hlink : InHeap P search.heap (block + 8))
    (hfit : fits search.required (search.heap.tag block) = false)
    (hnext : search.heap.next block = block) (fuel : Nat) :
    walk P size i fuel block search = .error .outOfFuel := by
  induction fuel with
  | zero => rfl
  | succ fuel ih =>
      rw [walk_step hne hheader hlink hfit, hnext]
      exact ih

/-- The heap after a request of 8000 bytes and one of 200 bytes, which has been freed. -/
def cyclicHeap : Heap := freeHeap 77656 (mallocHeap 200 largeHeap)

/-- The freed block is the head of its list and its own successor. -/
theorem cyclicHeap_values :
    ((sfMalloc fourPages 20 20 200 largeHeap).toOption.map Prod.snd = some 77656 ∧
      (sfFree fourPages 20 77656 (mallocHeap 200 largeHeap)).toOption.isSome = true) ∧
      (cyclicHeap.head 3 = 77648 ∧ cyclicHeap.next 77648 = 77648) ∧
        fits (roundUp (5000 + 16)).1 (cyclicHeap.tag 77648) = false ∧
          InHeap fourPages cyclicHeap 77648 ∧ InHeap fourPages cyclicHeap (77648 + 8) ∧
            ¬ cyclicHeap.heapEnd - fourPages.heapStart < PAGE_SZ := by
  decide +kernel

theorem cyclicHeap_reachable :
    (allocator fourPages).Reachable ⟨cyclicHeap, [⟨69640, 8000⟩]⟩ := by
  rcases cyclicHeap_values.1 with ⟨hcall, hfreeCall⟩
  have hboth : (allocator fourPages).Reachable
      ⟨mallocHeap 200 largeHeap, [⟨77656, 200⟩, ⟨69640, 8000⟩]⟩ :=
    reachable_malloc largeHeap_reachable (by decide) hcall (by decide)
  exact reachable_free (a := ⟨77656, 200⟩) hboth (by decide) hfreeCall

/-- A search that looks at the last list only does not leave a head that is its own
successor. -/
theorem searchLists_cycle {s : Heap} {size required block : Nat} {padding : Bool} (errno : Errno)
    (hmax : ∀ i, required < listMax i ↔ i = 3) (hne : block ≠ 0) (hhead : s.head 3 = block)
    (hnext : s.next block = block) (hfit : fits required (s.tag block) = false)
    (hheader : InHeap P s block) (hlink : InHeap P s (block + 8)) (fuel : Nat) :
    searchLists P fuel size (List.finRange 4) ⟨{ s with sfErrno := errno }, required, padding, 0⟩ =
      .error .outOfFuel := by
  let search : Search := ⟨{ s with sfErrno := errno }, required, padding, 0⟩
  have hcycle : walk P size 3 fuel block search = .error .outOfFuel := by
    refine walk_cycle search hne hheader hlink ?_ hnext fuel
    show fits required (({ s with sfErrno := errno } : Heap).tag block) = false
    rwa [tag_withErrno]
  have hskip (i : Fin 4) (is : List (Fin 4)) (hi : i ≠ 3) :
      searchLists P fuel size (i :: is) search = searchLists P fuel size is search := by
    rw [searchLists, if_pos rfl, if_neg (mt (hmax i).mp hi)]
  have hfirst : search.heap.head 3 = block := hhead
  have hlists : List.finRange 4 = [0, 1, 2, 3] := by decide
  show searchLists P fuel size (List.finRange 4) search = _
  rw [hlists, hskip 0 _ (by decide), hskip 1 _ (by decide), hskip 2 _ (by decide), searchLists,
    if_pos rfl, if_pos ((hmax 3).mpr rfl), hfirst, hcycle]
  rfl

/-- After a request of 8000 bytes and one of 200 bytes that is freed, the last list does not
end, and a request of 5000 bytes does not return. -/
theorem cyclicHeap_not_terminating :
    (allocator fourPages).Reachable ⟨cyclicHeap, [⟨69640, 8000⟩]⟩ ∧ ¬ ListsEnd cyclicHeap ∧
      ∀ t, ¬ Serves fourPages ⟨cyclicHeap, [⟨69640, 8000⟩]⟩ (.malloc 5000) t := by
  refine ⟨cyclicHeap_reachable, ?_, ?_⟩
  · intro hends
    rcases hends 3 with ⟨n, hn⟩
    rcases cyclicHeap_values.2.1 with ⟨hhead, hnext⟩
    rw [hhead, Function.iterate_fixed hnext] at hn
    exact absurd hn (by decide)
  · intro t hserves
    cases hserves with
    | malloc _ hreturns =>
        rcases hreturns with ⟨bound, hreturns⟩
        have hcall := hreturns bound (bound + 1) le_rfl (by omega)
        rcases cyclicHeap_values.2 with ⟨⟨hhead, hnext⟩, hfit, hheader, hlink, hopen⟩
        rw [sfMalloc, if_neg (by decide), openHeap_of_page hopen, ok_bind,
          searchLists_cycle .zero (by decide) (by decide) hhead hnext hfit hheader hlink] at hcall
        cases hcall

end SystemFundamentals.Sfmm
