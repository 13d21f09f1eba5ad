import SystemFundamentals.Library.Stream

/-!
# The Rio package

{lit}`rio_readn`, {lit}`rio_writen` and the buffered readers of {lit}`hw5/src/csapp.c`.  A
descriptor may deliver its bytes in pieces of any size, with signals in between, and may fail;
the caller of the package should see nothing of it but the bytes in their order and the errors
between them.

A call of {lit}`write` for a positive count transfers at least one byte or fails.  The
{lit}`int` that counts the bytes of a line does not overflow.

Main results:

- Theorem {lit}`rioReadn_eq`: {lit}`rio_readn` takes bytes from the stream behind the
  descriptor.
- Theorem {lit}`rioWriten_eq`: {lit}`rio_writen` hands its bytes over in order, up to the first
  error.
- Theorem {lit}`rio_runs_refine_stream`: any sequence of buffered reads takes consecutive pieces
  of the stream.
-/

namespace SystemFundamentals.Csapp

open Library Stream

/-- The value of {lit}`errno` after a call that failed for another reason than a signal. -/
inductive Errno
  | EPIPE
  | other (code : Nat)
deriving DecidableEq

/-- A descriptor that is read. -/
abbrev ReadFd := Descriptor UInt8 Errno

/-- A descriptor that is written. -/
abbrev WriteFd := Sink Errno

/-! ## Unbuffered input and output -/

/-- The loop of {lit}`rio_readn`: what it stores from {lit}`bufp` on. -/
def rioReadn (fd : ReadFd) (nleft : Nat) : Taken UInt8 Errno × ReadFd :=
  if _hleft : 0 < nleft then
    match _hread : read nleft fd with
    | (.interrupted, fd') => rioReadn fd' nleft
    | (.failed errno, fd') => (⟨[], some errno⟩, fd')
    | (.items items, fd') =>
        if _hitems : items = [] then (⟨[], none⟩, fd')
        else
          let rest := rioReadn fd' (nleft - items.length)
          (rest.1.prepend items, rest.2)
  else (⟨[], none⟩, fd)
termination_by weight fd
decreasing_by
  · exact (read_interrupted _hread).2
  · exact (read_items _hleft _hread).2 _hitems

/-- What {lit}`rio_readn` and {lit}`rio_readnb` return. -/
def returned (taken : Taken UInt8 Errno) : Int :=
  if taken.failure = none then taken.items.length else -1

/-- The loop of {lit}`rio_writen`: the bytes from {lit}`bufp` on that are written. -/
def rioWriten (fd : WriteFd) (bufp : List UInt8) : Taken UInt8 Errno × WriteFd :=
  if _hleft : 0 < bufp.length then
    match _hwrite : write bufp.length fd with
    | (.interrupted, fd') => rioWriten fd' bufp
    | (.failed errno, fd') => (⟨[], some errno⟩, fd')
    | (.accepted nwritten, fd') =>
        let rest := rioWriten fd' (bufp.drop nwritten)
        (rest.1.prepend (bufp.take nwritten), rest.2)
  else (⟨[], none⟩, fd)
termination_by (bufp.length, fd.length)
decreasing_by
  · exact Prod.Lex.right _ (write_interrupted _hwrite).2
  · apply Prod.Lex.left
    rw [List.length_drop]
    exact Nat.sub_lt _hleft (write_accepted _hleft _hwrite).1

/-- {lit}`rio_readn` stores what the stream has next, and leaves the rest of it. -/
theorem rioReadn_eq (fd : ReadFd) (n : Nat) :
    ((rioReadn fd n).1, source (rioReadn fd n).2) =
      (source fd).take (fun _ => false) n := by
  fun_induction rioReadn fd n with
  | case1 fd n hleft fd' hread ih => rw [ih, (read_interrupted hread).1]
  | case2 fd n hleft errno fd' hread =>
      obtain ⟨count, rfl⟩ := Nat.exists_eq_succ_of_ne_zero (Nat.ne_of_gt hleft)
      rw [(read_failed hread).1.of_error, Source.take_failed]
  | case3 fd n hleft fd' hread =>
      obtain ⟨hend, hend'⟩ := (read_items hleft hread).1.of_nil
      rw [hend, hend', Source.take_finished]
  | case4 fd n hleft items fd' hread hitems rest ih =>
      obtain ⟨hcount, hsource⟩ := (read_items hleft hread).1.of_items hitems
      rw [hsource, Source.take_append _ _ _ hcount, ← ih]
  | case5 fd n hleft =>
      obtain rfl : n = 0 := Nat.eq_zero_of_not_pos hleft
      rw [Source.take_zero]

/-- {lit}`rio_writen` hands over the bytes in order, as many as there is room for. -/
theorem rioWriten_eq (fd : WriteFd) (usrbuf : List UInt8) :
    (rioWriten fd usrbuf).1 =
        ⟨usrbuf.take ((budget fd).spend usrbuf.length).1.1,
          ((budget fd).spend usrbuf.length).1.2⟩ ∧
      budget (rioWriten fd usrbuf).2 = ((budget fd).spend usrbuf.length).2 := by
  fun_induction rioWriten fd usrbuf with
  | case1 fd bufp hleft fd' hwrite ih =>
      rw [(write_interrupted hwrite).1] at ih
      exact ih
  | case2 fd bufp hleft errno fd' hwrite =>
      obtain ⟨count, hcount⟩ := Nat.exists_eq_succ_of_ne_zero (Nat.ne_of_gt hleft)
      rw [write_failed hwrite, hcount, Budget.spend_failed]
      exact ⟨rfl, rfl⟩
  | case3 fd bufp hleft nwritten fd' hwrite rest ih =>
      obtain ⟨-, haccepted, hspend⟩ := write_accepted hleft hwrite
      rw [List.length_drop] at ih
      rw [hspend]
      refine ⟨?_, ih.2⟩
      show rest.1.prepend (bufp.take nwritten) = _
      rw [ih.1, List.take_add]
      rfl
  | case4 fd bufp hleft =>
      obtain rfl : bufp = [] := List.length_eq_zero_iff.mp (Nat.eq_zero_of_not_pos hleft)
      rw [List.length_nil, Budget.spend_zero]
      exact ⟨rfl, rfl⟩

/-! ## Buffered input -/

/-- The size of the internal buffer. -/
def RIO_BUFSIZE : Nat := 8192

/-- {lit}`rio_t`.  The pointer {lit}`rio_bufptr` is an index into {lit}`rio_buf`. -/
structure Rio where
  rioFd : ReadFd
  rioCnt : Int
  rioBufptr : Nat
  rioBuf : List UInt8

/-- {lit}`rio_readinitb`; the buffer holds whatever its memory held. -/
def rioReadinitb (rioBuf : List UInt8) (fd : ReadFd) : Rio := ⟨fd, 0, 0, rioBuf⟩

/-- A call of {lit}`read` into the start of the buffer that got {lit}`items`. -/
def Rio.filled (rp : Rio) (fd : ReadFd) (items : List UInt8) : Rio :=
  ⟨fd, items.length, 0, items ++ rp.rioBuf.drop items.length⟩

/-- The loop of {lit}`rio_read` that refills an empty buffer.  It ends with an error, at the end
of the file, or with bytes in the buffer. -/
def rioRefill (rp : Rio) : Except Errno Bool × Rio :=
  if _hcnt : rp.rioCnt ≤ 0 then
    match _hread : read RIO_BUFSIZE rp.rioFd with
    | (.interrupted, fd) => rioRefill { rp with rioFd := fd, rioCnt := -1 }
    | (.failed errno, fd) => (.error errno, { rp with rioFd := fd, rioCnt := -1 })
    | (.items items, fd) =>
        if items = [] then (.ok false, { rp with rioFd := fd, rioCnt := 0 })
        else (.ok true, rp.filled fd items)
  else (.ok true, rp)
termination_by weight rp.rioFd
decreasing_by exact (read_interrupted _hread).2

/-- {lit}`rio_read`: the bytes that are copied to {lit}`usrbuf`, none at the end of the file, or
the error. -/
def rioRead (rp : Rio) (n : Nat) : Except Errno (List UInt8) × Rio :=
  match rioRefill rp with
  | (.error errno, rp) => (.error errno, rp)
  | (.ok false, rp) => (.ok [], rp)
  | (.ok true, rp) =>
      let cnt := min n rp.rioCnt.toNat
      (.ok ((rp.rioBuf.drop rp.rioBufptr).take cnt),
        { rp with rioBufptr := rp.rioBufptr + cnt, rioCnt := rp.rioCnt - cnt })

/-- The loop of {lit}`rio_readnb`: what it stores from {lit}`bufp` on. -/
def rioReadnb (rp : Rio) (nleft : Nat) : Taken UInt8 Errno × Rio :=
  if _hleft : 0 < nleft then
    match rioRead rp nleft with
    | (.error errno, rp) => (⟨[], some errno⟩, rp)
    | (.ok items, rp) =>
        if _hitems : items = [] then (⟨[], none⟩, rp)
        else
          let rest := rioReadnb rp (nleft - items.length)
          (rest.1.prepend items, rest.2)
  else (⟨[], none⟩, rp)
termination_by nleft
decreasing_by exact Nat.sub_lt _hleft (List.length_pos_iff.mpr _hitems)

/-- What a reader returns and what it stores in {lit}`usrbuf`. -/
structure Reply where
  ret : Int
  usrbuf : List UInt8
deriving DecidableEq

/-- The end of a line. -/
def newline : UInt8 := 10

/-- The loop of {lit}`rio_readlineb` from its turn {lit}`n` on. -/
def rioReadlinebLoop (rp : Rio) (n maxlen : Nat) : Reply × Rio :=
  if n < maxlen then
    match rioRead rp 1 with
    | (.error _, rp) => (⟨-1, []⟩, rp)
    | (.ok [], rp) => (if n = 1 then ⟨0, []⟩ else ⟨n - 1, [0]⟩, rp)
    | (.ok (c :: _), rp) =>
        if c = newline then (⟨n, [c, 0]⟩, rp)
        else
          let rest := rioReadlinebLoop rp (n + 1) maxlen
          (⟨rest.1.ret, c :: rest.1.usrbuf⟩, rest.2)
  else (⟨n - 1, [0]⟩, rp)
termination_by maxlen - n

/-- {lit}`rio_readlineb`. -/
def rioReadlineb (rp : Rio) (maxlen : Nat) : Reply × Rio :=
  rioReadlinebLoop rp 1 maxlen

/-! ### The stream behind the buffer -/

/-- The bytes in the buffer that have not been read. -/
def Rio.unread (rp : Rio) : List UInt8 :=
  (rp.rioBuf.drop rp.rioBufptr).take rp.rioCnt.toNat

/-- What is still to come: the bytes in the buffer, and the stream behind the descriptor. -/
def Rio.stream (rp : Rio) : Source UInt8 Errno :=
  ⟨rp.unread ++ (source rp.rioFd).current, (source rp.rioFd).later⟩

/-- The bytes that have not been read lie inside the buffer. -/
structure Rio.InBounds (rp : Rio) : Prop where
  length : rp.rioBuf.length = RIO_BUFSIZE
  unread : rp.rioBufptr + rp.rioCnt.toNat ≤ RIO_BUFSIZE

theorem Rio.stream_of_empty {rp : Rio} (h : rp.rioCnt ≤ 0) : rp.stream = source rp.rioFd := by
  have hzero : rp.rioCnt.toNat = 0 := Int.toNat_of_nonpos h
  simp [stream, unread, hzero]

theorem Rio.stream_filled (rp : Rio) (fd : ReadFd) (items : List UInt8) :
    (rp.filled fd items).stream = ⟨items ++ (source fd).current, (source fd).later⟩ := by
  simp [stream, unread, filled]

theorem Rio.InBounds.filled {rp : Rio} (h : rp.InBounds) (fd : ReadFd) {items : List UInt8}
    (hitems : items.length ≤ RIO_BUFSIZE) : (rp.filled fd items).InBounds := by
  constructor
  · have hlength := h.length
    simp only [Rio.filled, List.length_append, List.length_drop]
    omega
  · simpa [Rio.filled] using hitems

theorem Rio.InBounds.emptied {rp : Rio} (h : rp.InBounds) (fd : ReadFd) {cnt : Int}
    (hcnt : cnt ≤ 0) : ({ rp with rioFd := fd, rioCnt := cnt } : Rio).InBounds := by
  have hunread := h.unread
  have hzero : cnt.toNat = 0 := Int.toNat_of_nonpos hcnt
  refine ⟨h.length, ?_⟩
  simp only [hzero]
  omega

/-- The outcomes of the refill, with the stream they leave. -/
inductive RefillCase (rp : Rio) : Except Errno Bool × Rio → Prop
  | failed {errno : Errno} {rp' : Rio} : rp'.InBounds →
      rp.stream = ⟨[], (errno, rp'.stream.current) :: rp'.stream.later⟩ →
        RefillCase rp (.error errno, rp')
  | finished {rp' : Rio} : rp'.InBounds → rp.stream = ⟨[], []⟩ → rp'.stream = ⟨[], []⟩ →
      RefillCase rp (.ok false, rp')
  | ready {rp' : Rio} : rp'.InBounds → rp'.stream = rp.stream → 0 < rp'.rioCnt →
      RefillCase rp (.ok true, rp')

theorem rioRefill_case (rp : Rio) (h : rp.InBounds) : RefillCase rp (rioRefill rp) := by
  fun_induction rioRefill rp with
  | case1 rp hcnt fd hread ih =>
      have hstream : ({ rp with rioFd := fd, rioCnt := -1 } : Rio).stream = rp.stream := by
        rw [Rio.stream_of_empty hcnt, Rio.stream_of_empty (by simp)]
        exact (read_interrupted hread).1
      have hcase := ih (h.emptied fd (by simp))
      generalize rioRefill { rp with rioFd := fd, rioCnt := -1 } = refilled at hcase
      cases hcase with
      | failed hbounds hfail => exact .failed hbounds (hstream.symm.trans hfail)
      | finished hbounds hend hleft => exact .finished hbounds (hstream.symm.trans hend) hleft
      | ready hbounds hsame hpos => exact .ready hbounds (hsame.trans hstream) hpos
  | case2 rp hcnt errno fd hread =>
      refine .failed (h.emptied fd (by simp)) ?_
      rw [Rio.stream_of_empty hcnt, Rio.stream_of_empty (by simp)]
      exact (read_failed hread).1.of_error
  | case3 rp hcnt fd hread =>
      obtain ⟨hend, hend'⟩ := (read_items (Nat.succ_pos 8191) hread).1.of_nil
      refine .finished (h.emptied fd (by simp)) ?_ ?_
      · rw [Rio.stream_of_empty hcnt, hend]
      · rw [Rio.stream_of_empty (by simp)]
        exact hend'
  | case4 rp hcnt items fd hread hitems =>
      obtain ⟨hcount, hsource⟩ := (read_items (Nat.succ_pos 8191) hread).1.of_items hitems
      refine .ready (h.filled fd hcount) ?_ ?_
      · rw [Rio.stream_filled, Rio.stream_of_empty hcnt, hsource]
      · exact Int.natCast_pos.mpr (List.length_pos_iff.mpr hitems)
  | case5 rp hcnt => exact .ready h rfl (Int.not_le.mp hcnt)

/-- {lit}`rio_read` delivers from the stream, and never copies from outside the buffer. -/
theorem rioRead_delivers {rp : Rio} (h : rp.InBounds) {n : Nat} (hn : 0 < n) :
    Delivers n rp.stream (rioRead rp n).1 (rioRead rp n).2.stream ∧
      (rioRead rp n).2.InBounds := by
  have hcase := rioRefill_case rp h
  unfold rioRead
  generalize rioRefill rp = refilled at hcase
  cases hcase with
  | failed hbounds hfail =>
      refine ⟨?_, hbounds⟩
      rw [hfail]
      exact .failed
  | finished hbounds hend hleft =>
      refine ⟨?_, hbounds⟩
      rw [hend, hleft]
      exact .finished
  | @ready rp' hbounds hsame hpos =>
      rcases rp' with ⟨fd, rioCnt, rioBufptr, rioBuf⟩
      obtain ⟨cnt, rfl⟩ := Int.eq_ofNat_of_zero_le (Int.le_of_lt hpos)
      have hcnt : 0 < cnt := Int.natCast_pos.mp hpos
      have hlength := hbounds.length
      have hunread := hbounds.unread
      simp only [Int.toNat_natCast] at hlength hunread ⊢
      have hcopied : min n cnt ≤ cnt := Nat.min_le_right ..
      have hint : ((cnt : Int) - (min n cnt : Nat)).toNat = cnt - min n cnt := by omega
      -- the bytes that are copied come before the bytes that stay
      have hsplit : (rioBuf.drop rioBufptr).take cnt =
          (rioBuf.drop rioBufptr).take (min n cnt) ++
            (rioBuf.drop (rioBufptr + min n cnt)).take (cnt - min n cnt) := by
        rw [← List.drop_drop, ← List.take_add]
        congr 1
        omega
      constructor
      · rw [← hsame]
        simp only [Rio.stream, Rio.unread, Int.toNat_natCast]
        rw [hint, hsplit, List.append_assoc]
        refine .items ?_ ?_
        · apply List.ne_nil_of_length_pos
          rw [List.length_take, List.length_drop]
          omega
        · rw [List.length_take]
          omega
      · refine ⟨hlength, ?_⟩
        simp only [hint]
        omega

/-- {lit}`rio_readnb` stores what the stream has next, and leaves the rest of it. -/
theorem rioReadnb_eq {rp : Rio} (h : rp.InBounds) (n : Nat) :
    ((rioReadnb rp n).1, (rioReadnb rp n).2.stream) = rp.stream.take (fun _ => false) n ∧
      (rioReadnb rp n).2.InBounds := by
  fun_induction rioReadnb rp n with
  | case1 rp nleft hleft errno rp' hread =>
      obtain ⟨count, rfl⟩ := Nat.exists_eq_succ_of_ne_zero (Nat.ne_of_gt hleft)
      obtain ⟨hdelivers, hbounds⟩ := rioRead_delivers h hleft
      rw [hread] at hdelivers hbounds
      rw [hdelivers.of_error, Source.take_failed]
      exact ⟨rfl, hbounds⟩
  | case2 rp nleft hleft rp' hread =>
      obtain ⟨hdelivers, hbounds⟩ := rioRead_delivers h hleft
      rw [hread] at hdelivers hbounds
      rw [hdelivers.of_nil.1, Source.take_finished, hdelivers.of_nil.2]
      exact ⟨rfl, hbounds⟩
  | case3 rp nleft hleft items rp' hread hitems rest ih =>
      obtain ⟨hdelivers, hbounds⟩ := rioRead_delivers h hleft
      rw [hread] at hdelivers hbounds
      obtain ⟨hcount, hstream⟩ := hdelivers.of_items hitems
      rw [hstream, Source.take_append _ _ _ hcount, ← (ih hbounds).1]
      exact ⟨rfl, (ih hbounds).2⟩
  | case4 rp nleft hleft =>
      obtain rfl : nleft = 0 := Nat.eq_zero_of_not_pos hleft
      rw [Source.take_zero]
      exact ⟨rfl, h⟩

/-- What {lit}`rio_readlineb` makes of the bytes it takes from its turn {lit}`n` on. -/
def lineReply (n maxlen : Nat) (taken : Taken UInt8 Errno) : Reply :=
  match taken.failure with
  | some _ => ⟨-1, taken.items⟩
  | none =>
      if taken.items = [] ∧ n = 1 ∧ n < maxlen then ⟨0, []⟩
      else ⟨n - 1 + taken.items.length, taken.items ++ [0]⟩

/-- One more byte of the line. -/
theorem lineReply_prepend {n maxlen : Nat} (hn : 1 ≤ n) (c : UInt8)
    (taken : Taken UInt8 Errno) :
    lineReply n maxlen (taken.prepend [c]) =
      ⟨(lineReply (n + 1) maxlen taken).ret, c :: (lineReply (n + 1) maxlen taken).usrbuf⟩ := by
  have hfirst : n ≠ 0 := by omega
  rcases taken with ⟨items, failure⟩
  cases failure with
  | some errno => rfl
  | none =>
      simp only [lineReply, Taken.prepend, List.cons_append, List.nil_append, List.length_cons,
        reduceCtorEq, false_and, if_false, Nat.add_eq_right, hfirst, and_false]
      congr 1
      omega

/-- {lit}`rio_readlineb` takes bytes up to a newline. -/
theorem rioReadlinebLoop_eq {rp : Rio} (h : rp.InBounds) {n : Nat} (hn : 1 ≤ n)
    (maxlen : Nat) :
    (rioReadlinebLoop rp n maxlen).1 =
        lineReply n maxlen (rp.stream.take (· = newline) (maxlen - n)).1 ∧
      (rioReadlinebLoop rp n maxlen).2.stream =
        (rp.stream.take (· = newline) (maxlen - n)).2 ∧
      (rioReadlinebLoop rp n maxlen).2.InBounds := by
  fun_induction rioReadlinebLoop rp n maxlen with
  | case1 rp n hlt errno rp' hread =>
      obtain ⟨left, hleft⟩ := Nat.exists_eq_succ_of_ne_zero (Nat.sub_ne_zero_of_lt hlt)
      obtain ⟨hdelivers, hbounds⟩ := rioRead_delivers h Nat.one_pos
      rw [hread] at hdelivers hbounds
      rw [hleft, hdelivers.of_error, Source.take_failed]
      exact ⟨rfl, rfl, hbounds⟩
  | case2 rp n hlt rp' hread =>
      obtain ⟨hdelivers, hbounds⟩ := rioRead_delivers h Nat.one_pos
      rw [hread] at hdelivers hbounds
      rw [hdelivers.of_nil.1, Source.take_finished, hdelivers.of_nil.2]
      refine ⟨?_, rfl, hbounds⟩
      by_cases hfirst : n = 1
      · simp [lineReply, hfirst, hfirst ▸ hlt]
      · simp [lineReply, hfirst]
  | case3 rp n hlt items rp' hread =>
      obtain ⟨left, hleft⟩ := Nat.exists_eq_succ_of_ne_zero (Nat.sub_ne_zero_of_lt hlt)
      obtain ⟨hdelivers, hbounds⟩ := rioRead_delivers h Nat.one_pos
      rw [hread] at hdelivers hbounds
      obtain ⟨hcount, hstream⟩ := hdelivers.of_items (List.cons_ne_nil _ _)
      obtain rfl : items = [] := by
        cases items with
        | nil => rfl
        | cons c items => simp at hcount
      rw [hleft, hstream, List.singleton_append, Source.take_cons]
      simp only [decide_true, if_true]
      refine ⟨?_, trivial, hbounds⟩
      simp [lineReply]
  | case4 rp n hlt c items rp' hread hc rest ih =>
      obtain ⟨left, hleft⟩ := Nat.exists_eq_succ_of_ne_zero (Nat.sub_ne_zero_of_lt hlt)
      obtain ⟨hdelivers, hbounds⟩ := rioRead_delivers h Nat.one_pos
      rw [hread] at hdelivers hbounds
      obtain ⟨hcount, hstream⟩ := hdelivers.of_items (List.cons_ne_nil _ _)
      obtain rfl : items = [] := by
        cases items with
        | nil => rfl
        | cons c items => simp at hcount
      obtain ⟨hreply, hleft', hbounds'⟩ := ih hbounds (Nat.le_succ_of_le hn)
      have hnext : maxlen - (n + 1) = left := by omega
      rw [hnext] at hreply hleft'
      rw [hleft, hstream, List.singleton_append, Source.take_cons]
      simp only [hc, decide_false, Bool.false_eq_true, if_false]
      refine ⟨?_, hleft', hbounds'⟩
      rw [lineReply_prepend hn, ← hreply]
  | case5 rp n hlt =>
      have hzero : maxlen - n = 0 := by omega
      rw [hzero, Source.take_zero]
      refine ⟨?_, rfl, h⟩
      simp [lineReply, hlt]

/-! ## Sequences of reads -/

/-- A call of a buffered reader. -/
inductive Request
  | readnb (n : Nat)
  | readlineb (maxlen : Nat)
deriving DecidableEq

/-- The calls of the package. -/
def Rio.serve (rp : Rio) : Request → Reply × Rio
  | .readnb n => (⟨returned (rioReadnb rp n).1, (rioReadnb rp n).1.items⟩, (rioReadnb rp n).2)
  | .readlineb maxlen => rioReadlineb rp maxlen

/-- What the calls are for: pieces of the stream. -/
def serveStream (s : Source UInt8 Errno) : Request → Reply × Source UInt8 Errno
  | .readnb n =>
      let taken := s.take (fun _ => false) n
      (⟨returned taken.1, taken.1.items⟩, taken.2)
  | .readlineb maxlen =>
      let taken := s.take (· = newline) (maxlen - 1)
      (lineReply 1 maxlen taken.1, taken.2)

/-- The replies to calls in a row. -/
def replies {State : Type} (serve : State → Request → Reply × State) :
    State → List Request → List Reply
  | _, [] => []
  | state, request :: requests =>
      (serve state request).1 :: replies serve (serve state request).2 requests

/-- One call. -/
theorem Rio.serve_eq {rp : Rio} (h : rp.InBounds) (request : Request) :
    (rp.serve request).1 = (serveStream rp.stream request).1 ∧
      (rp.serve request).2.stream = (serveStream rp.stream request).2 ∧
      (rp.serve request).2.InBounds := by
  cases request with
  | readnb n =>
      obtain ⟨heq, hbounds⟩ := rioReadnb_eq h n
      simp only [Rio.serve, serveStream, ← heq]
      exact ⟨trivial, trivial, hbounds⟩
  | readlineb maxlen => exact rioReadlinebLoop_eq h (Nat.le_refl 1) maxlen

/-- Calls in a row. -/
theorem Rio.replies_eq {rp : Rio} (h : rp.InBounds) (requests : List Request) :
    replies Rio.serve rp requests = replies serveStream rp.stream requests := by
  induction requests generalizing rp with
  | nil => rfl
  | cons request requests ih =>
      obtain ⟨hreply, hstream, hbounds⟩ := Rio.serve_eq h request
      rw [replies, replies, hreply, ih hbounds, hstream]

/-- However the descriptor cuts the stream into pieces, wherever signals interrupt its calls,
and whatever the buffer held before, the buffered readers reply to a sequence of calls with
consecutive pieces of the stream behind the descriptor. -/
theorem rio_runs_refine_stream (rioBuf : List UInt8) (hsize : rioBuf.length = RIO_BUFSIZE)
    (fd : ReadFd) (requests : List Request) :
    replies Rio.serve (rioReadinitb rioBuf fd) requests =
      replies serveStream (source fd) requests := by
  have hbounds : (rioReadinitb rioBuf fd).InBounds :=
    ⟨hsize, by simp [rioReadinitb, RIO_BUFSIZE]⟩
  rw [Rio.replies_eq hbounds, Rio.stream_of_empty (Int.le_refl 0)]
  rfl

/-- A stream in four pieces with a signal between them, read by two calls. -/
theorem rio_runs_refine_stream_pieces :
    (List.replicate 8192 (0 : UInt8)).length = RIO_BUFSIZE ∧
      replies Rio.serve (rioReadinitb (List.replicate 8192 0)
          [.data 104 [], .interrupt, .data 105 [10, 1], .interrupt, .data 2 []])
          [.readlineb 80, .readnb 5] =
        [⟨3, [104, 105, 10, 0]⟩, ⟨2, [1, 2]⟩] := by
  have hsize : (List.replicate 8192 (0 : UInt8)).length = RIO_BUFSIZE :=
    List.length_replicate
  refine ⟨hsize, ?_⟩
  rw [rio_runs_refine_stream _ hsize]
  decide

end SystemFundamentals.Csapp
