import SystemFundamentals.Cream.Worker

/-!
# The response protocol

Every complete request within the size limits should be answered with a response header and
as many bytes as it announces.  A request below the minimum sizes is answered with the first
bytes of the request header instead, and a request whose call on the map does not return is
not answered.  As in {lit}`HashMap`, a zero byte is taken to lie behind every key buffer.

Main results:

- Theorem {lit}`put_returns_iff`: when {lit}`put` returns.
- Theorem {lit}`respondsAsPromised_iff`: when a request is answered as it should be.
-/

namespace SystemFundamentals.Cream

open Library

/-! ## Requests and responses -/

/-- The key of a complete request. -/
def sentKey (stream : List UInt8) : List UInt8 :=
  (stream.drop 9).take (RequestHeader.ofBytes stream).keySize.toNat

/-- The value of a complete request. -/
def sentVal (stream : List UInt8) : List UInt8 :=
  (stream.drop (9 + (RequestHeader.ofBytes stream).keySize.toNat)).take
    (RequestHeader.ofBytes stream).valueSize.toNat

/-- The response to a {lit}`GET` that has found a value, or none. -/
def getPromise (ret : MapVal) : ResponseHeader × List UInt8 :=
  match ret with
  | some found => (⟨ResponseCode.OK, UInt32.ofNat found.bytes.length⟩, found.bytes)
  | none => (⟨ResponseCode.NOT_FOUND, 0⟩, [])

variable {cap : Nat} [NeZero cap]

/-- The header and the bytes of the response to a request; {lean}`none` when a call on the
map that decides it does not return. -/
def promisedResponse (hashFunction : List UInt8 → UInt32) (cache : HashMap cap)
    (header : RequestHeader) (key val : List UInt8) : Option (ResponseHeader × List UInt8) :=
  if header.requestCode = RequestCode.PUT then
    if header.keySize < minKeySize ∨ header.valueSize < minValueSize then
      some (⟨ResponseCode.BAD_REQUEST, 0⟩, [])
    else
      match put hashFunction cache (toBuffer key) (toBuffer val) true with
      | .error _ => none
      | .ok reply =>
          some (⟨if reply.ret then ResponseCode.OK else ResponseCode.BAD_REQUEST, 0⟩, [])
  else if header.requestCode = RequestCode.GET then
    if header.keySize < minKeySize then some (⟨ResponseCode.NOT_FOUND, 0⟩, [])
    else
      match get hashFunction cache (toBuffer key) with
      | .error _ => none
      | .ok reply => some (getPromise reply.ret)
  else if header.requestCode = RequestCode.EVICT then some (⟨ResponseCode.OK, 0⟩, [])
  else if header.requestCode = RequestCode.CLEAR then some (⟨ResponseCode.OK, 0⟩, [])
  else some (⟨ResponseCode.UNSUPPORTED, 0⟩, [])

/-- The worker writes the promised header, then the promised bytes, of which there are as
many as the header announces. -/
def RespondsAsPromised (hashFunction : List UInt8 → UInt32) (cache : HashMap cap)
    (stale : RequestHeader) (stream : List UInt8) : Prop :=
  ∃ outcome header bytes, workerThread hashFunction cache stale stream = .ok outcome ∧
    promisedResponse hashFunction cache (.ofBytes stream) (sentKey stream) (sentVal stream) =
      some (header, bytes) ∧
    outcome.written = header.toBytes ++ bytes ∧ bytes.length = header.valueSize.toNat

/-- The map counts itself full, or has a slot that is empty, holds the key or has a
tombstone. -/
def HasRoom (cache : HashMap cap) (key : Option Buffer) : Prop :=
  UInt32.ofNat cap = cache.size ∨
    ∃ i, canPutKey (cache.nodes i) key = true ∨ (cache.nodes i).tombstone = true

omit [NeZero cap] in
instance (cache : HashMap cap) (key : Option Buffer) : Decidable (HasRoom cache key) :=
  inferInstanceAs (Decidable (_ ∨ _))

/-- The map holds no value of 2^32 bytes or more under the key. -/
def ShortValue (hashFunction : List UInt8 → UInt32) (cache : HashMap cap)
    (key : Option Buffer) : Prop :=
  ∀ k i found, key = some k → findSlot cache.nodes (getIndex hashFunction k) k = some i →
    (cache.nodes i).val = some found → found.bytes.length < 2 ^ 32

/-- The sizes reach their minima, and the call on the map returns. -/
def Answerable (hashFunction : List UInt8 → UInt32) (cache : HashMap cap)
    (header : RequestHeader) (key : Option Buffer) : Prop :=
  if header.requestCode = RequestCode.PUT then
    minKeySize ≤ header.keySize ∧ minValueSize ≤ header.valueSize ∧
      (cache.invalid = true ∨ cache.numReaders ≤ 0 ∧ HasRoom cache key)
  else if header.requestCode = RequestCode.GET then
    minKeySize ≤ header.keySize ∧
      (cache.invalid = true ∨ 0 ≤ cache.numReaders ∧ ShortValue hashFunction cache key)
  else if header.requestCode = RequestCode.EVICT then
    minKeySize ≤ header.keySize ∧ (cache.invalid = true ∨ cache.numReaders ≤ 0)
  else if header.requestCode = RequestCode.CLEAR then
    cache.invalid = true ∨ cache.numReaders ≤ 0
  else True

/-! ## Complete requests -/

/-- A buffer that is not larger than what arrives is filled. -/
theorem rioReadn_full {buffer stream : List UInt8} (h : buffer.length ≤ stream.length) :
    (rioReadn buffer stream).1 = stream.take buffer.length := by
  rw [rioReadn, List.drop_eq_nil_of_le h, List.append_nil]

theorem Complete.receivedHeader {stream : List UInt8} (h : Complete stream)
    (stale : RequestHeader) : receivedHeader stale stream = .ofBytes stream := by
  have hlength : stale.toBytes.length ≤ stream.length := by
    rw [RequestHeader.length_toBytes]
    exact h.1
  rw [Cream.receivedHeader, rioReadn_full hlength, RequestHeader.length_toBytes]
  simp only [RequestHeader.ofBytes, List.drop_take, List.take_take]
  cases stream with
  | nil => rfl
  | cons byte stream => rfl

theorem Complete.receivedKey {stream : List UInt8} (h : Complete stream) :
    receivedKey (.ofBytes stream) stream = sentKey stream := by
  have hlength := h.2
  rw [Cream.receivedKey, rioReadn_full, List.length_replicate]
  · rfl
  · rw [List.length_replicate, List.length_drop]
    omega

theorem Complete.receivedVal {stream : List UInt8} (h : Complete stream) :
    receivedVal (.ofBytes stream) stream = sentVal stream := by
  have hlength := h.2
  rw [Cream.receivedVal, rioReadn_full, List.length_replicate]
  · rfl
  · rw [List.length_replicate, List.length_drop]
    omega

theorem toBuffer_sentKey {stream : List UInt8} (h : Complete stream)
    (hsize : (RequestHeader.ofBytes stream).keySize ≠ 0) :
    ∃ key, toBuffer (sentKey stream) = some key := by
  rw [← h.receivedKey]
  exact toBuffer_rioReadn hsize (stream.drop 9)

theorem toBuffer_sentVal {stream : List UInt8} (h : Complete stream)
    (hsize : (RequestHeader.ofBytes stream).valueSize ≠ 0) :
    ∃ val, toBuffer (sentVal stream) = some val := by
  rw [← h.receivedVal]
  exact toBuffer_rioReadn hsize _

/-! ## When a call on the map returns -/

/-- {lit}`put` with force returns when the map is invalid, or when there are no readers and
the map has room for the key. -/
theorem put_returns_iff (hashFunction : List UInt8 → UInt32) (cache : HashMap cap)
    (key val : Buffer) :
    (∃ reply, put hashFunction cache (some key) (some val) true = .ok reply) ↔
      cache.invalid = true ∨ cache.numReaders ≤ 0 ∧ HasRoom cache (some key) := by
  by_cases hvalid : cache.invalid = true
  · simp [put, hvalid]
  by_cases hspin : 0 < cache.numReaders
  · have hreaders : ¬ cache.numReaders ≤ 0 := by omega
    simp [put, hvalid, hspin, hreaders]
  have hreaders : cache.numReaders ≤ 0 := by omega
  have hput : (∃ reply, put hashFunction cache (some key) (some val) true = .ok reply) ↔
      ∃ stored, putNode hashFunction cache key val true = .ok stored := by
    simp only [put, putLocked, if_neg hvalid, if_neg hspin, Bool.true_eq_false, and_false, if_false]
    cases putNode hashFunction cache key val true with
    | error stop => simp
    | ok stored => simp
  have hroom : (cache.invalid = true ∨ cache.numReaders ≤ 0 ∧ HasRoom cache (some key)) ↔
      HasRoom cache (some key) := by simp [hvalid, hreaders]
  rw [hput, hroom]
  have hcase := putNode_case hashFunction cache key val true
  generalize putNode hashFunction cache key val true = stored at hcase
  cases hcase with
  | replace hfull _ => exact iff_of_true ⟨_, rfl⟩ (Or.inl hfull)
  | insert _ e _ _ hempty =>
      refine iff_of_true ⟨_, rfl⟩ (Or.inr ⟨Ring.along (getIndex hashFunction key) e, Or.inl ?_⟩)
      exact Bool.or_eq_true_iff.mpr (Or.inl hempty)
  | overwrite _ e _ _ hkey =>
      refine iff_of_true ⟨_, rfl⟩ (Or.inr ⟨Ring.along (getIndex hashFunction key) e, Or.inl ?_⟩)
      exact Bool.or_eq_true_iff.mpr (Or.inr hkey)
  | reuse _ _ x _ htomb =>
      exact iff_of_true ⟨_, rfl⟩ (Or.inr ⟨Ring.along (getIndex hashFunction key) x, Or.inr htomb⟩)
  | missing hnot hpass hnone =>
      refine iff_of_false (by simp) ?_
      rintro (hfull | ⟨i, hput | htomb⟩)
      · exact hnot ⟨hfull, rfl⟩
      · have hstop := hpass _ (Ring.dist_lt (getIndex hashFunction key) i)
        rw [Ring.along_dist, hput] at hstop
        contradiction
      · rw [hnone i] at htomb
        contradiction

theorem get_returns_iff (hashFunction : List UInt8 → UInt32) (cache : HashMap cap)
    (key : Buffer) :
    (∃ reply, get hashFunction cache (some key) = .ok reply) ↔
      cache.invalid = true ∨ 0 ≤ cache.numReaders := by
  unfold get
  split_ifs with hvalid hspin
  · simp [hvalid]
  · simp [hvalid, hspin]
  · simp [Int.not_lt.mp hspin]

theorem delete_returns_iff (hashFunction : List UInt8 → UInt32) (cache : HashMap cap)
    (key : Buffer) :
    (∃ reply, delete hashFunction cache (some key) = .ok reply) ↔
      cache.invalid = true ∨ cache.numReaders ≤ 0 := by
  unfold delete
  split_ifs with hvalid hspin
  · simp [hvalid]
  · simp [hvalid, hspin]
  · cases hfind : findSlot cache.nodes (getIndex hashFunction key) key with
    | none => simp [hfind, Int.not_lt.mp hspin]
    | some index => simp [hfind, Int.not_lt.mp hspin]

omit [NeZero cap] in
theorem clearMap_returns_iff (cache : HashMap cap) :
    (∃ reply, clearMap cache = .ok reply) ↔
      cache.invalid = true ∨ cache.numReaders ≤ 0 := by
  unfold clearMap
  split_ifs with hvalid hspin
  · simp [hvalid]
  · simp [hvalid, hspin]
  · simp [Int.not_lt.mp hspin]

/-- What {lit}`get` returns comes from the slot that the search finds. -/
theorem get_ret_eq {hashFunction : List UInt8 → UInt32} {cache : HashMap cap} {key : Buffer}
    {reply : Reply cap MapVal} (h : get hashFunction cache (some key) = .ok reply)
    (hvalid : ¬ cache.invalid = true) :
    reply.ret = (findSlot cache.nodes (getIndex hashFunction key) key).bind
      fun index => (cache.nodes index).val := by
  simp only [get, if_neg hvalid] at h
  split_ifs at h
  cases h
  cases hfind : findSlot cache.nodes (getIndex hashFunction key) key with
  | none => simp
  | some index => simp

/-! ## What the worker writes -/

/-- A call of the worker's dispatch answers as promised. -/
def Answers (outcome : Except Stop (Outcome cap)) (promise : Option (ResponseHeader × List UInt8)) :
    Prop :=
  ∃ result header bytes, outcome = .ok result ∧ promise = some (header, bytes) ∧
    result.written = header.toBytes ++ bytes ∧ bytes.length = header.valueSize.toNat

omit [NeZero cap] in
/-- A refused request is not answered with a response whose code starts with another
byte. -/
theorem not_answers_refuse (cache : HashMap cap) {header : RequestHeader}
    {response : ResponseHeader}
    (hcode : response.toBytes.head? ≠ some header.requestCode) :
    ¬ Answers (.ok (refuse cache header)) (some (response, [])) := by
  rintro ⟨result, response', bytes, hresult, hpromise, hwritten, -⟩
  cases hresult
  cases hpromise
  apply hcode
  have hhead := congrArg List.head? hwritten
  rw [List.append_nil] at hhead
  exact hhead.symm

omit [NeZero cap] in
/-- A response without a value is answered as promised, if the call returns. -/
theorem answers_map_iff {α : Type} {call : Except Stop (Reply cap α)}
    (response : Reply cap α → UInt32) {promise : Option (ResponseHeader × List UInt8)}
    (hpromise : ∀ reply, call = .ok reply → promise = some (⟨response reply, 0⟩, [])) :
    Answers (call.map fun reply => respond reply.self ⟨response reply, 0⟩ none) promise ↔
      ∃ reply, call = .ok reply := by
  cases call with
  | error stop =>
      refine iff_of_false ?_ (by simp)
      rintro ⟨result, -, -, hresult, -⟩
      cases hresult
  | ok reply =>
      refine iff_of_true ⟨_, _, _, rfl, hpromise reply rfl, ?_, rfl⟩ ⟨reply, rfl⟩
      simp [respond]

omit [NeZero cap] in
/-- A response to {lit}`GET` is as promised when the length of the value is not cut. -/
theorem answers_get_iff (cache : HashMap cap) (ret : MapVal) :
    Answers (.ok (respond cache (getHeader ret) ret)) (some (getPromise ret)) ↔
      ∀ found, ret = some found → found.bytes.length < 2 ^ 32 := by
  cases ret with
  | none =>
      refine iff_of_true ⟨_, _, _, rfl, rfl, ?_, rfl⟩ (by simp)
      simp [respond, getHeader]
  | some found =>
      constructor
      · rintro ⟨result, header, bytes, -, hpromise, -, hlength⟩
        intro found' hfound
        cases hpromise
        cases hfound
        rw [hlength]
        exact UInt32.toNat_lt _
      · intro hshort
        have hlt := hshort found rfl
        have hnat : (UInt32.ofNat found.bytes.length).toNat = found.bytes.length := by
          rw [UInt32.toNat_ofNat']
          exact Nat.mod_eq_of_lt hlt
        have hpos : 0 < UInt32.ofNat found.bytes.length := by
          rw [UInt32.lt_iff_toNat_lt, hnat]
          exact List.length_pos_iff.mpr found.nonempty
        refine ⟨_, _, _, rfl, rfl, ?_, hnat.symm⟩
        simp [respond, getHeader, hpos]

theorem answers_getCall_iff (hashFunction : List UInt8 → UInt32) (cache : HashMap cap)
    (key : Buffer) :
    Answers ((get hashFunction cache (some key)).map fun reply =>
        respond reply.self (getHeader reply.ret) reply.ret)
      (match get hashFunction cache (some key) with
        | .error _ => none
        | .ok reply => some (getPromise reply.ret)) ↔
      cache.invalid = true ∨
        0 ≤ cache.numReaders ∧ ShortValue hashFunction cache (some key) := by
  have hreturns := get_returns_iff hashFunction cache key
  cases hcall : get hashFunction cache (some key) with
  | error stop =>
      have hnot : ¬ (cache.invalid = true ∨ 0 ≤ cache.numReaders) := by
        rw [← hreturns, hcall]
        simp
      refine iff_of_false ?_ fun h => hnot (h.imp_right And.left)
      rintro ⟨result, -, -, hresult, -⟩
      cases hresult
  | ok reply =>
      have hcases := hreturns.mp ⟨reply, hcall⟩
      refine (answers_get_iff reply.self reply.ret).trans ?_
      by_cases hvalid : cache.invalid = true
      · refine iff_of_true ?_ (Or.inl hvalid)
        simp only [get, if_pos hvalid] at hcall
        cases hcall
        simp
      · have hreaders := hcases.resolve_left hvalid
        have hret := get_ret_eq hcall hvalid
        rw [or_iff_right hvalid, and_iff_right hreaders, hret]
        constructor
        · intro hshort k i found hk hfind hval
          cases hk
          apply hshort
          rw [hfind]
          exact hval
        · intro hshort found hfound
          rcases Option.bind_eq_some_iff.mp hfound with ⟨i, hfind, hval⟩
          exact hshort key i found rfl hfind hval

/-! ## The characterization -/

/-- Which complete requests are answered as promised, request by request. -/
theorem serve_answers_iff (hashFunction : List UInt8 → UInt32) (cache : HashMap cap)
    {stream : List UInt8} (hcomplete : Complete stream) :
    Answers (serve hashFunction cache (.ofBytes stream) (sentKey stream) (sentVal stream))
        (promisedResponse hashFunction cache (.ofBytes stream) (sentKey stream)
          (sentVal stream)) ↔
      Answerable hashFunction cache (.ofBytes stream) (toBuffer (sentKey stream)) := by
  have hkeyBuffer := toBuffer_sentKey hcomplete
  have hvalBuffer := toBuffer_sentVal hcomplete
  generalize RequestHeader.ofBytes stream = header at hkeyBuffer hvalBuffer ⊢
  have hmin (size : UInt32) : size < 1 ↔ size = 0 := by
    rw [UInt32.lt_iff_toNat_lt, ← UInt32.toNat_inj]
    exact Nat.lt_one_iff
  have hmin' (size : UInt32) : 1 ≤ size ↔ size ≠ 0 := by
    rw [← UInt32.not_lt, hmin]
  unfold serve promisedResponse Answerable
  simp only [minKeySize, minValueSize, hmin, hmin']
  by_cases hput : header.requestCode = RequestCode.PUT
  · simp only [if_pos hput]
    by_cases hsize : header.keySize = 0 ∨ header.valueSize = 0
    · simp only [if_pos hsize]
      refine iff_of_false (not_answers_refuse cache ?_) ?_
      · rw [hput]
        decide
      · rintro ⟨hkey, hval, -⟩
        exact hsize.elim hkey hval
    · rcases not_or.mp hsize with ⟨hkey, hval⟩
      rcases hkeyBuffer hkey with ⟨key, hkeyBuffer⟩
      rcases hvalBuffer hval with ⟨val, hvalBuffer⟩
      simp only [hkeyBuffer, hvalBuffer, ne_eq, hkey, hval, or_self, if_false, not_false_eq_true,
        true_and]
      rw [answers_map_iff (fun reply : Reply cap Bool =>
        if reply.ret then ResponseCode.OK else ResponseCode.BAD_REQUEST), put_returns_iff]
      intro reply hreply
      rw [hreply]
  simp only [if_neg hput]
  by_cases hget : header.requestCode = RequestCode.GET
  · simp only [if_pos hget]
    by_cases hkey : header.keySize = 0
    · simp only [if_pos hkey]
      refine iff_of_false (not_answers_refuse cache ?_) fun h => h.1 hkey
      rw [hget]
      decide
    · rcases hkeyBuffer hkey with ⟨key, hkeyBuffer⟩
      simp only [hkeyBuffer, ne_eq, hkey, if_false, not_false_eq_true, true_and]
      exact answers_getCall_iff hashFunction cache key
  simp only [if_neg hget]
  by_cases hevict : header.requestCode = RequestCode.EVICT
  · simp only [if_pos hevict]
    by_cases hkey : header.keySize = 0
    · simp only [if_pos hkey]
      refine iff_of_false (not_answers_refuse cache ?_) fun h => h.1 hkey
      rw [hevict]
      decide
    · rcases hkeyBuffer hkey with ⟨key, hkeyBuffer⟩
      simp only [hkeyBuffer, ne_eq, hkey, if_false, not_false_eq_true, true_and]
      rw [answers_map_iff (fun _ => ResponseCode.OK) fun _ _ => rfl, delete_returns_iff]
  simp only [if_neg hevict]
  by_cases hclear : header.requestCode = RequestCode.CLEAR
  · simp only [if_pos hclear]
    rw [answers_map_iff (fun _ => ResponseCode.OK) fun _ _ => rfl, clearMap_returns_iff]
  · simp only [if_neg hclear, iff_true]
    refine ⟨_, _, _, rfl, rfl, ?_, rfl⟩
    simp [respond]

/-- A complete request within the size limits is answered as it should be if and only if its
sizes reach their minima and the call on the map returns. -/
theorem respondsAsPromised_iff (hashFunction : List UInt8 → UInt32) (cache : HashMap cap)
    (stale : RequestHeader) {stream : List UInt8} (hcomplete : Complete stream)
    (hsize : ¬ Oversized (.ofBytes stream)) :
    RespondsAsPromised hashFunction cache stale stream ↔
      Answerable hashFunction cache (.ofBytes stream) (toBuffer (sentKey stream)) := by
  rw [← serve_answers_iff hashFunction cache hcomplete]
  unfold RespondsAsPromised workerThread Answers
  simp only [hcomplete.receivedHeader, if_neg hsize, hcomplete.receivedKey,
    hcomplete.receivedVal]

/-- A {lit}`GET` for a key that an empty cache does not hold. -/
theorem respondsAsPromised_get :
    RespondsAsPromised (fun _ => 0) (createMap 1) ⟨0, 0, 0⟩ [2, 1, 0, 0, 0, 0, 0, 0, 0, 97] :=
  (respondsAsPromised_iff (fun _ => 0) (createMap 1) ⟨0, 0, 0⟩ (by decide) (by decide)).mpr
    ⟨by decide, Or.inr ⟨le_rfl, by
      intro k i found _ _ hval
      cases hval⟩⟩

/-- A {lit}`PUT` without a key is answered with its own header. -/
theorem not_respondsAsPromised_put :
    ¬ ∀ (cap : Nat) [NeZero cap] (hashFunction : List UInt8 → UInt32) (cache : HashMap cap)
      (stale : RequestHeader) (stream : List UInt8), Complete stream →
        ¬ Oversized (.ofBytes stream) → RespondsAsPromised hashFunction cache stale stream := by
  intro hall
  have hresponds := hall 1 (fun _ => 0) (createMap 1) ⟨0, 0, 0⟩ [1, 0, 0, 0, 0, 0, 0, 0, 0]
    (by decide) (by decide)
  rcases hresponds with ⟨outcome, header, bytes, hrun, hpromise, hwritten, -⟩
  cases hrun
  cases hpromise
  exact absurd hwritten (by decide)

end SystemFundamentals.Cream
