import Mathlib.Data.List.Basic

/-!
# Descriptors and the streams behind them

A call of {lit}`read` may deliver fewer items than it was asked for, may be interrupted by a
signal before it delivers any, and may fail.  A descriptor is here the list of what its calls
will find.  The reader of a descriptor is interested in something else: the items in their
order, and the errors between them.  This file fixes both views, and what it means to take
items from the second until a stop item or a number of them has been seen.

Main results:

- Theorems {lit}`read_interrupted`, {lit}`read_failed` and {lit}`read_items`: what one call of
  {lit}`read` does to the stream.
- Theorems {lit}`Source.take_append` and {lit}`Source.take_cons`: items can be taken piece by
  piece.
- Theorems {lit}`write_interrupted`, {lit}`write_failed` and {lit}`write_accepted`: what one call
  of {lit}`write` does to the room for items.
-/

namespace SystemFundamentals.Library.Stream

universe u v

variable {α : Type u} {ε : Type v}

/-! ## Descriptors -/

/-- What a call of {lit}`read` finds: some items, a signal, or an error. -/
inductive Event (α : Type u) (ε : Type v)
  | data (first : α) (rest : List α)
  | interrupt
  | failure (error : ε)

/-- What the calls on a descriptor will find.  It is at its end behind the last event. -/
abbrev Descriptor (α : Type u) (ε : Type v) := List (Event α ε)

/-- The answer of one call.  No items are the end of the stream. -/
inductive Answer (α : Type u) (ε : Type v)
  | items (items : List α)
  | interrupted
  | failed (error : ε)

/-- The items of a chunk that a call leaves are there for the next one. -/
def leave : List α → Descriptor α ε → Descriptor α ε
  | [], fd => fd
  | first :: rest, fd => .data first rest :: fd

/-- A call of {lit}`read` for {lit}`count` items. -/
def read (count : Nat) : Descriptor α ε → Answer α ε × Descriptor α ε
  | [] => (.items [], [])
  | .data first rest :: fd =>
      (.items ((first :: rest).take count), leave ((first :: rest).drop count) fd)
  | .interrupt :: fd => (.interrupted, fd)
  | .failure error :: fd => (.failed error, fd)

/-- A bound on the calls until the end of the stream. -/
def weight : Descriptor α ε → Nat
  | [] => 0
  | .data _ rest :: fd => rest.length + 1 + weight fd
  | .interrupt :: fd => 1 + weight fd
  | .failure _ :: fd => 1 + weight fd

theorem weight_leave (items : List α) (fd : Descriptor α ε) :
    weight (leave items fd) = items.length + weight fd := by
  cases items with
  | nil => simp [leave]
  | cons first rest => simp [leave, weight]

/-! ## Streams -/

/-- The items up to the next error, and each error with the items behind it. -/
structure Source (α : Type u) (ε : Type v) where
  current : List α
  later : List (ε × List α)

/-- The stream behind a descriptor. -/
def source : Descriptor α ε → Source α ε
  | [] => ⟨[], []⟩
  | .data first rest :: fd => ⟨first :: (rest ++ (source fd).current), (source fd).later⟩
  | .interrupt :: fd => source fd
  | .failure error :: fd => ⟨[], (error, (source fd).current) :: (source fd).later⟩

theorem source_leave (items : List α) (fd : Descriptor α ε) :
    source (leave items fd) = ⟨items ++ (source fd).current, (source fd).later⟩ := by
  cases items with
  | nil => rfl
  | cons first rest => rfl

/-- What a reader that does not see interrupts gets from a stream at once. -/
inductive Delivers (count : Nat) : Source α ε → Except ε (List α) → Source α ε → Prop
  | items {items current : List α} {later : List (ε × List α)} :
      items ≠ [] → items.length ≤ count →
        Delivers count ⟨items ++ current, later⟩ (.ok items) ⟨current, later⟩
  | finished : Delivers count ⟨[], []⟩ (.ok []) ⟨[], []⟩
  | failed {error : ε} {next : List α} {later : List (ε × List α)} :
      Delivers count ⟨[], (error, next) :: later⟩ (.error error) ⟨next, later⟩

/-- An error is behind the last item before it. -/
theorem Delivers.of_error {count : Nat} {s s' : Source α ε} {error : ε}
    (h : Delivers count s (.error error) s') :
    s = ⟨[], (error, s'.current) :: s'.later⟩ := by
  cases h
  rfl

/-- No items are the end of the stream. -/
theorem Delivers.of_nil {count : Nat} {s s' : Source α ε} (h : Delivers count s (.ok []) s') :
    s = ⟨[], []⟩ ∧ s' = ⟨[], []⟩ := by
  cases h with
  | items hne _ => exact absurd rfl hne
  | finished => exact ⟨rfl, rfl⟩

/-- Items are the first ones of the stream. -/
theorem Delivers.of_items {count : Nat} {s s' : Source α ε} {items : List α}
    (h : Delivers count s (.ok items) s') (hne : items ≠ []) :
    items.length ≤ count ∧ s = ⟨items ++ s'.current, s'.later⟩ := by
  cases h with
  | items _ hcount => exact ⟨hcount, rfl⟩
  | finished => exact absurd rfl hne

/-- An interrupted call leaves the stream as it was. -/
theorem read_interrupted {count : Nat} {fd fd' : Descriptor α ε}
    (h : read count fd = (.interrupted, fd')) :
    source fd' = source fd ∧ weight fd' < weight fd := by
  cases fd with
  | nil => cases h
  | cons event fd =>
      cases event with
      | data first rest => cases h
      | failure error => cases h
      | interrupt =>
          cases h
          exact ⟨rfl, by simp [weight]⟩

/-- A call fails where the stream has an error. -/
theorem read_failed {count : Nat} {fd fd' : Descriptor α ε} {error : ε}
    (h : read count fd = (.failed error, fd')) :
    Delivers count (source fd) (.error error) (source fd') ∧ weight fd' < weight fd := by
  cases fd with
  | nil => cases h
  | cons event fd =>
      cases event with
      | data first rest => cases h
      | interrupt => cases h
      | failure error =>
          cases h
          exact ⟨.failed, by simp [weight]⟩

/-- Any other call delivers from the stream.  At its end there are no items. -/
theorem read_items {count : Nat} (hcount : 0 < count) {fd fd' : Descriptor α ε}
    {items : List α} (h : read count fd = (.items items, fd')) :
    Delivers count (source fd) (.ok items) (source fd') ∧
      (items ≠ [] → weight fd' < weight fd) := by
  cases fd with
  | nil =>
      cases h
      exact ⟨.finished, fun hne => absurd rfl hne⟩
  | cons event fd =>
      cases event with
      | interrupt => cases h
      | failure error => cases h
      | data first rest =>
          cases h
          have hsource : source (.data first rest :: fd) =
              ⟨(first :: rest).take count ++
                ((first :: rest).drop count ++ (source fd).current), (source fd).later⟩ := by
            rw [← List.append_assoc, List.take_append_drop]
            rfl
          constructor
          · rw [hsource, source_leave]
            refine .items ?_ (List.length_take_le ..)
            apply List.ne_nil_of_length_pos
            simp only [List.length_take, List.length_cons]
            omega
          · intro _
            rw [weight_leave, List.length_drop]
            simp only [weight, List.length_cons]
            omega

/-! ## Taking items -/

/-- The items up to the first stop item, but not more than {lit}`count`, and whether all of
them are there. -/
def upTo (stop : α → Bool) : Nat → List α → List α × Bool
  | 0, _ => ([], true)
  | _ + 1, [] => ([], false)
  | count + 1, first :: rest =>
      if stop first then ([first], true)
      else (first :: (upTo stop count rest).1, (upTo stop count rest).2)

/-- What a reader has stored, and the error that ended it. -/
structure Taken (α : Type u) (ε : Type v) where
  items : List α
  failure : Option ε
deriving DecidableEq

/-- Items stored in front of others. -/
def Taken.prepend (items : List α) (taken : Taken α ε) : Taken α ε :=
  ⟨items ++ taken.items, taken.failure⟩

@[simp] theorem Taken.prepend_nil (taken : Taken α ε) : taken.prepend [] = taken := rfl

theorem Taken.prepend_prepend (front items : List α) (taken : Taken α ε) :
    (taken.prepend items).prepend front = taken.prepend (front ++ items) := by
  simp [prepend]

/-- Taking items from a stream until a stop item, a number of items, an error or the end. -/
def Source.take (stop : α → Bool) (count : Nat) (s : Source α ε) :
    Taken α ε × Source α ε :=
  let items := upTo stop count s.current
  if items.2 then (⟨items.1, none⟩, ⟨s.current.drop items.1.length, s.later⟩)
  else
    match s.later with
    | [] => (⟨items.1, none⟩, ⟨[], []⟩)
    | (error, next) :: later => (⟨items.1, some error⟩, ⟨next, later⟩)

@[simp] theorem Source.take_zero (stop : α → Bool) (s : Source α ε) :
    s.take stop 0 = (⟨[], none⟩, s) := rfl

theorem Source.take_finished (stop : α → Bool) (count : Nat) :
    (⟨[], []⟩ : Source α ε).take stop count = (⟨[], none⟩, ⟨[], []⟩) := by
  cases count with
  | zero => rfl
  | succ count => rfl

theorem Source.take_failed (stop : α → Bool) (count : Nat) (error : ε) (next : List α)
    (later : List (ε × List α)) :
    (⟨[], (error, next) :: later⟩ : Source α ε).take stop (count + 1) =
      (⟨[], some error⟩, ⟨next, later⟩) := rfl

/-- The first item is the last one that is taken, or the rest is taken behind it. -/
theorem Source.take_cons (stop : α → Bool) (count : Nat) (first : α) (current : List α)
    (later : List (ε × List α)) :
    (⟨first :: current, later⟩ : Source α ε).take stop (count + 1) =
      if stop first then (⟨[first], none⟩, ⟨current, later⟩)
      else
        (((⟨current, later⟩ : Source α ε).take stop count).1.prepend [first],
          ((⟨current, later⟩ : Source α ε).take stop count).2) := by
  unfold take
  simp only [upTo]
  by_cases hstop : stop first = true
  · simp [hstop]
  · simp only [hstop, Bool.false_eq_true, if_false]
    cases hall : (upTo stop count current).2 with
    | true => simp [Taken.prepend]
    | false =>
        cases later with
        | nil => simp [Taken.prepend]
        | cons error later => simp [Taken.prepend]

/-- Without a stop item a number of items is taken in pieces. -/
theorem Source.take_append {count : Nat} (items current : List α)
    (later : List (ε × List α)) (hcount : items.length ≤ count) :
    (⟨items ++ current, later⟩ : Source α ε).take (fun _ => false) count =
      (((⟨current, later⟩ : Source α ε).take (fun _ => false)
          (count - items.length)).1.prepend items,
        ((⟨current, later⟩ : Source α ε).take (fun _ => false) (count - items.length)).2) := by
  induction items generalizing count with
  | nil => rfl
  | cons first items ih =>
      cases count with
      | zero => exact absurd hcount (Nat.not_succ_le_zero _)
      | succ count =>
          rw [List.cons_append, take_cons, ih (Nat.le_of_succ_le_succ hcount)]
          simp only [Bool.false_eq_true, if_false, List.length_cons, Nat.add_sub_add_right,
            Taken.prepend_prepend, List.singleton_append]

/-! ### Errors in the way -/

/-- Taking items that arrive before any error. -/
theorem Source.take_of_le {count : Nat} (current : List α) (later : List (ε × List α))
    (hcount : count ≤ current.length) :
    (⟨current, later⟩ : Source α ε).take (fun _ => false) count =
      (⟨current.take count, none⟩, ⟨current.drop count, later⟩) := by
  have hlength : (current.take count).length = count := by
    rw [List.length_take, Nat.min_eq_left hcount]
  have h := take_append (current.take count) (current.drop count) later
    (Nat.le_of_eq hlength)
  rw [List.take_append_drop, hlength, Nat.sub_self, take_zero] at h
  rw [h]
  simp [Taken.prepend]

/-- Asking for more items than arrive before the next error. -/
theorem Source.take_of_lt {count : Nat} (current : List α) (later : List (ε × List α))
    (hcount : current.length < count) :
    (⟨current, later⟩ : Source α ε).take (fun _ => false) count =
      match later with
      | [] => (⟨current, none⟩, ⟨[], []⟩)
      | (error, next) :: later => (⟨current, some error⟩, ⟨next, later⟩) := by
  have h := take_append current [] later (Nat.le_of_lt hcount)
  obtain ⟨left, hleft⟩ : ∃ left, count - current.length = left + 1 :=
    Nat.exists_eq_succ_of_ne_zero (Nat.sub_ne_zero_of_lt hcount)
  rw [List.append_nil, hleft] at h
  rw [h]
  cases later with
  | nil => simp [take_finished, Taken.prepend]
  | cons error later =>
      rcases error with ⟨error, next⟩
      rw [take_failed]
      simp [Taken.prepend]

/-- The error that a reader of {lit}`count` items meets. -/
def Source.errorBefore (count : Nat) (s : Source α ε) : Option ε :=
  if s.current.length < count then s.later.head?.map Prod.fst else none

/-- A reader that meets an error has stored what comes before it. -/
theorem Source.take_of_errorBefore {count : Nat} {s : Source α ε} {error : ε}
    (h : s.errorBefore count = some error) :
    (s.take (fun _ => false) count).1 = ⟨s.current, some error⟩ := by
  rcases s with ⟨current, later⟩
  unfold errorBefore at h
  split_ifs at h with hlt
  rw [take_of_lt current later hlt]
  cases later with
  | nil => cases h
  | cons first later =>
      rcases first with ⟨error', next⟩
      cases h
      rfl

/-- A reader that meets none stores the items there are. -/
theorem Source.take_of_sound {count : Nat} {s : Source α ε} (h : s.errorBefore count = none) :
    s.take (fun _ => false) count =
      (⟨s.current.take count, none⟩, ⟨s.current.drop count, s.later⟩) := by
  rcases s with ⟨current, later⟩
  by_cases hlt : current.length < count
  · unfold errorBefore at h
    rw [if_pos hlt] at h
    rw [take_of_lt current later hlt]
    cases later with
    | nil =>
        have hle := Nat.le_of_lt hlt
        simp [List.take_of_length_le hle, List.drop_eq_nil_of_le hle]
    | cons first later => cases h
  · exact take_of_le current later (Nat.not_lt.mp hlt)

/-- An error is in the way of a longer read too. -/
theorem Source.errorBefore_mono {count count' : Nat} {s : Source α ε} {error : ε}
    (h : s.errorBefore count = some error) (hle : count ≤ count') :
    s.errorBefore count' = some error := by
  unfold errorBefore at h ⊢
  split_ifs at h with hlt
  rw [if_pos (Nat.lt_of_lt_of_le hlt hle)]
  exact h

/-- Reading on behind items that have been read. -/
theorem Source.errorBefore_add {count : Nat} {s : Source α ε} (h : s.errorBefore count = none)
    (more : Nat) :
    (⟨s.current.drop count, s.later⟩ : Source α ε).errorBefore more =
      s.errorBefore (count + more) := by
  unfold errorBefore at h ⊢
  simp only [List.length_drop]
  by_cases hlt : s.current.length < count
  · rw [if_pos hlt] at h
    rw [h, ite_self, ite_self]
  · have hiff : s.current.length - count < more ↔ s.current.length < count + more := by omega
    simp only [hiff]

/-! ## Writing -/

/-- What a call of {lit}`write` finds: room for one item and some more, a signal, or an
error. -/
inductive Grant (ε : Type v)
  | room (more : Nat)
  | interrupt
  | failure (error : ε)

/-- What the calls of {lit}`write` on a descriptor will find.  Behind the last event there is
room for everything. -/
abbrev Sink (ε : Type v) := List (Grant ε)

/-- The answer of one call of {lit}`write`. -/
inductive WriteAnswer (ε : Type v)
  | accepted (count : Nat)
  | interrupted
  | failed (error : ε)

/-- A call of {lit}`write` with {lit}`count` items. -/
def write (count : Nat) : Sink ε → WriteAnswer ε × Sink ε
  | [] => (.accepted count, [])
  | .room more :: fd =>
      (.accepted (min (more + 1) count), if count ≤ more then .room (more - count) :: fd else fd)
  | .interrupt :: fd => (.interrupted, fd)
  | .failure error :: fd => (.failed error, fd)

/-- The room up to the next error, and each error with the room behind it.  Behind the last
error it has no end. -/
structure Budget (ε : Type v) where
  current : Nat
  later : List (ε × Nat)

/-- The budget behind a descriptor. -/
def budget : Sink ε → Budget ε
  | [] => ⟨0, []⟩
  | .room more :: fd => ⟨more + 1 + (budget fd).current, (budget fd).later⟩
  | .interrupt :: fd => budget fd
  | .failure error :: fd => ⟨0, (error, (budget fd).current) :: (budget fd).later⟩

/-- How many of {lit}`count` items a budget has room for, and the error behind them. -/
def Budget.spend (count : Nat) (b : Budget ε) : (Nat × Option ε) × Budget ε :=
  match b.later with
  | [] => ((count, none), ⟨b.current - count, []⟩)
  | (error, next) :: later =>
      if count ≤ b.current then ((count, none), ⟨b.current - count, b.later⟩)
      else ((b.current, some error), ⟨next, later⟩)

@[simp] theorem Budget.spend_zero (b : Budget ε) : b.spend 0 = ((0, none), b) := by
  rcases b with ⟨current, later⟩
  cases later with
  | nil => rfl
  | cons error later => simp [spend]

theorem Budget.spend_failed (count : Nat) (error : ε) (next : Nat) (later : List (ε × Nat)) :
    (⟨0, (error, next) :: later⟩ : Budget ε).spend (count + 1) =
      ((0, some error), ⟨next, later⟩) := by
  simp [spend]

/-- The items that are accepted at once come off the count and off the room. -/
theorem Budget.spend_add {accepted count : Nat} (haccepted : accepted ≤ count) (room : Nat)
    (later : List (ε × Nat)) :
    (⟨accepted + room, later⟩ : Budget ε).spend count =
      ((accepted + ((⟨room, later⟩ : Budget ε).spend (count - accepted)).1.1,
          ((⟨room, later⟩ : Budget ε).spend (count - accepted)).1.2),
        ((⟨room, later⟩ : Budget ε).spend (count - accepted)).2) := by
  unfold spend
  cases later with
  | nil =>
      have hcount : accepted + (count - accepted) = count := by omega
      have hroom : accepted + room - count = room - (count - accepted) := by omega
      simp [hcount, hroom]
  | cons error later =>
      by_cases hroom : count ≤ accepted + room
      · have hleft : count - accepted ≤ room := by omega
        have hcount : accepted + (count - accepted) = count := by omega
        have hrest : accepted + room - count = room - (count - accepted) := by omega
        simp [hroom, hleft, hcount, hrest]
      · have hleft : ¬ count - accepted ≤ room := by omega
        simp [hroom, hleft]

theorem Budget.spend_le (count : Nat) (b : Budget ε) : (b.spend count).1.1 ≤ count := by
  rcases b with ⟨current, later⟩
  cases later with
  | nil => exact Nat.le_refl count
  | cons first later =>
      by_cases hroom : count ≤ current
      · simp [spend, hroom]
      · simpa [spend, hroom] using Nat.le_of_not_le hroom

/-- Where the room ends within some items, more items get no further. -/
theorem Budget.spend_of_failed {count count' : Nat} {b : Budget ε} {error : ε}
    (h : (b.spend count).1.2 = some error) (hle : count ≤ count') :
    b.spend count' = b.spend count := by
  rcases b with ⟨current, later⟩
  cases later with
  | nil => cases h
  | cons first later =>
      rcases first with ⟨error', next⟩
      by_cases hroom : count ≤ current
      · simp [spend, hroom] at h
      · have hroom' : ¬ count' ≤ current := by omega
        simp [spend, hroom, hroom']

/-- Where there is room for some items, the others come behind them. -/
theorem Budget.spend_of_done {count : Nat} {b : Budget ε} (h : (b.spend count).1.2 = none) :
    (b.spend count).1.1 = count ∧ ∀ more, b.spend (count + more) =
      ((count + ((b.spend count).2.spend more).1.1, ((b.spend count).2.spend more).1.2),
        ((b.spend count).2.spend more).2) := by
  rcases b with ⟨current, later⟩
  cases later with
  | nil =>
      refine ⟨rfl, ?_⟩
      intro more
      simp [spend, Nat.sub_sub]
  | cons first later =>
      by_cases hroom : count ≤ current
      · refine ⟨by simp [spend, hroom], ?_⟩
        intro more
        obtain ⟨room, rfl⟩ := Nat.exists_eq_add_of_le hroom
        rw [spend_add (Nat.le_add_right count more)]
        simp [spend]
      · rcases first with ⟨error', next⟩
        simp [spend, hroom] at h

/-- An interrupted call leaves the room as it was. -/
theorem write_interrupted {count : Nat} {fd fd' : Sink ε}
    (h : write count fd = (.interrupted, fd')) :
    budget fd' = budget fd ∧ fd'.length < fd.length := by
  cases fd with
  | nil => cases h
  | cons event fd =>
      cases event with
      | room more => cases h
      | failure error => cases h
      | interrupt =>
          cases h
          exact ⟨rfl, by simp⟩

/-- A call fails where the room ends. -/
theorem write_failed {count : Nat} {fd fd' : Sink ε} {error : ε}
    (h : write count fd = (.failed error, fd')) :
    budget fd = ⟨0, (error, (budget fd').current) :: (budget fd').later⟩ := by
  cases fd with
  | nil => cases h
  | cons event fd =>
      cases event with
      | room more => cases h
      | interrupt => cases h
      | failure error =>
          cases h
          rfl

/-- Any other call takes some of the items, and leaves the room behind them. -/
theorem write_accepted {count accepted : Nat} (hcount : 0 < count) {fd fd' : Sink ε}
    (h : write count fd = (.accepted accepted, fd')) :
    0 < accepted ∧ accepted ≤ count ∧
      (budget fd).spend count =
        ((accepted + ((budget fd').spend (count - accepted)).1.1,
            ((budget fd').spend (count - accepted)).1.2),
          ((budget fd').spend (count - accepted)).2) := by
  cases fd with
  | nil =>
      cases h
      refine ⟨hcount, Nat.le_refl _, ?_⟩
      simp [budget, Budget.spend]
  | cons event fd =>
      cases event with
      | interrupt => cases h
      | failure error => cases h
      | room more =>
          cases h
          refine ⟨Nat.lt_min.mpr ⟨Nat.succ_pos _, hcount⟩, Nat.min_le_right .., ?_⟩
          by_cases hmore : count ≤ more
          · have hmin : min (more + 1) count = count := by omega
            have hroom : more + 1 + (budget fd).current =
                count + (more - count + 1 + (budget fd).current) := by omega
            rw [if_pos hmore, hmin, budget, hroom, Budget.spend_add (Nat.le_refl count)]
            rfl
          · have hmin : min (more + 1) count = more + 1 := by omega
            rw [if_neg hmore, hmin, budget, Budget.spend_add (by omega)]

end SystemFundamentals.Library.Stream
