import Mathlib.Algebra.Order.BigOperators.Group.List
import FlexPS.KVStore.ControlledCall

/-!
# What the callback of a pull needs

The callback of a chunk pull copies the chunks out of the values of a reply, one after the other:
the chunk with number `i` from place `i * chunk_size` on, and to the end of the values where it is
the last chunk of the store.  Whether it can do so depends on the outline of the replies only: the
chunk ids, and how many values come with them.  These are fixed by the request.

## Main definitions

* `Call.parts` — the parts of a request that are not empty, for keys and chunk ids in any order.
* `Outline`, `Sent.outline`, `Reply.outline` — what is known of a reply before it is made.
* `Answers` — a reply answers a message.
* `Call.CanCopy` — the callback can copy what it gets.
* `Callback.run_isSome_iff` — then, and only then, it comes to its end.
-/

namespace FlexPS.KVStore

open Lib

variable {Val : Type}

/-! ## The parts of a request -/

/-- The pieces that are not empty. -/
def partsAt (pos xs : List ℕ) : List (List ℕ) :=
  ((pieces pos).filter fun p => p.1 != p.2).map fun p => segment xs p.1 p.2

/-- The parts of a request that are not empty: its keys or chunk ids, server by server. -/
def Call.parts (t : RangeTable) : Call Val → List (List ℕ)
  | push keys _ | pull keys => partsAt (slicePositions keys t.serverKeyRanges) keys
  | pushChunks chunkIds _ | pullChunks chunkIds _ | pullChunksWithMinClock chunkIds _ =>
      ((partitionChunks_ t chunkIds).map fun pos => partsAt pos chunkIds).getD []

theorem length_partsAt (pos xs : List ℕ) : (partsAt pos xs).length = waitNum pos := by
  rw [partsAt, List.length_map, waitNum, List.countP_eq_length_filter]

theorem Positions.ne_nil_of_mem_partsAt {pos xs part : List ℕ} (h : Positions xs.length pos)
    (hpart : part ∈ partsAt pos xs) : part ≠ [] := by
  obtain ⟨p, hp, rfl⟩ := List.mem_map.mp hpart
  obtain ⟨hp, hne⟩ := List.mem_filter.mp hp
  obtain ⟨hle, hlength⟩ := h.of_mem_pieces hp
  have hne : p.1 ≠ p.2 := by simpa using hne
  rw [← List.length_pos_iff, length_segment hlength]
  omega

theorem Positions.sum_partsAt_le {pos xs : List ℕ} (h : Positions xs.length pos) :
    ((partsAt pos xs).map List.length).sum ≤ xs.length := by
  refine Nat.le_trans ?_ h.sum_pieces_le
  have hlengths : (partsAt pos xs).map List.length =
      ((pieces pos).filter fun p => p.1 != p.2).map fun p => p.2 - p.1 := by
    rw [partsAt, List.map_map]
    refine List.map_congr_left fun p hp => ?_
    exact length_segment (h.of_mem_pieces (List.mem_filter.mp hp).1).2
  rw [hlengths]
  exact (List.filter_sublist.map _).sum_le_sum fun _ _ => Nat.zero_le _

/-- No part is empty. -/
theorem Call.ne_nil_of_mem_parts {t : RangeTable} {c : Call Val} {part : List ℕ}
    (h : part ∈ c.parts t) : part ≠ [] := by
  have hchunks : ∀ chunkIds, part ∈ ((partitionChunks_ t chunkIds).map fun pos =>
      partsAt pos chunkIds).getD [] → part ≠ [] := by
    intro chunkIds hpart
    cases hpos : partitionChunks_ t chunkIds with
    | none => simp [hpos] at hpart
    | some pos =>
        rw [hpos] at hpart
        exact (positions_partitionChunks hpos).ne_nil_of_mem_partsAt hpart
  cases c with
  | push keys _ => exact (positions_slicePositions keys _).ne_nil_of_mem_partsAt h
  | pull keys => exact (positions_slicePositions keys _).ne_nil_of_mem_partsAt h
  | pushChunks chunkIds _ => exact hchunks chunkIds h
  | pullChunks chunkIds _ => exact hchunks chunkIds h
  | pullChunksWithMinClock chunkIds _ => exact hchunks chunkIds h

/-! ## Outlines -/

/-- What is known of the content of a reply to a pull before it is made: its keys or chunk ids, how
many values come with them, and whether a clock does. -/
structure Outline where
  keys : List ℕ
  numVals : ℕ
  clocked : Bool
  deriving DecidableEq, Repr

/-- The outline of what a worker reads off a reply; the reply to a push has nothing for it. -/
def contentOutline (content : Option (KVPairs Val × Option ℤ)) : Option Outline :=
  content.map fun c => ⟨c.1.keys, c.1.vals.length, c.2.isSome⟩

/-- The outline of a reply, if it can be read. -/
def Reply.outline (r : Reply Val) : Option (Option Outline) :=
  (KVWorker.decodeReply (replyBody r)).map contentOutline

/-- The outline of the reply to a part of a call. -/
def Call.outline (t : RangeTable) (c : Call Val) (part : List ℕ) : Option Outline :=
  if c.isPush then none else some ⟨part, (c.touched t part).length, c.withMinClock⟩

/-- The outline of the reply to a message: the reply to a pull has the keys or chunk ids that the
message asks for with all their values, and a clock if the command asks for it. -/
def Sent.outline (tables : ℕ → RangeTable) (q : Sent Val) : Option Outline :=
  let cmd := q.request.cmd % consistencyControlOffMagic
  if q.request.push then none
  else (decodePull (tables q.kvId) (bodyCmd cmd) q.request.bin).map fun asked =>
    ⟨asked.1, asked.2.length, withMinClockMagic < cmd⟩

/-- The request of its worker that a reply belongs to. -/
def Reply.request (r : Reply Val) : ℕ × ℕ := (r.kvId, r.ts)

/-- A reply answers a message: it goes back under the store and the timestamp of the request, with
the content that was asked for. -/
def Answers (tables : ℕ → RangeTable) (r : Reply Val) (q : Sent Val) : Prop :=
  r.request = q.key ∧ r.outline = some (q.outline tables)

instance decidableAnswers (tables : ℕ → RangeTable) (r : Reply Val) (q : Sent Val) :
    Decidable (Answers tables r q) :=
  inferInstanceAs (Decidable (_ ∧ _))

/-! ## The messages of a request -/

/-- The messages of a call whose slice is not empty. -/
def nonemptySlices (kvId : ℕ) (messages : List (Option (Request Val))) : List (Sent Val) :=
  (sentMessages kvId messages).filter fun q => !q.request.bin.isEmpty

/-- Messages with a body for those items that satisfy `p`. -/
theorem map_nonemptySlices {α β : Type} {kvId : ℕ} {p : α → Bool}
    {message : α × ℕ → Option (Request Val)} {outline : Sent Val → β} {g : α → β}
    (hskip : ∀ x i r, p x = false → message (x, i) = some r → r.bin = [])
    (hsent : ∀ x i, p x = true →
      ∃ r, message (x, i) = some r ∧ r.bin ≠ [] ∧ outline ⟨kvId, i, r⟩ = g x)
    (items : List α) :
    (nonemptySlices kvId (items.zipIdx.map message)).map outline = (items.filter p).map g := by
  suffices hfrom : ∀ k, (((((items.zipIdx k).map message).zipIdx k).filterMap fun m =>
      m.1.map fun r => (⟨kvId, m.2, r⟩ : Sent Val)).filter fun q => !q.request.bin.isEmpty).map
        outline = (items.filter p).map g from hfrom 0
  induction items with
  | nil => exact fun _ => rfl
  | cons x items ih =>
      intro k
      rw [List.zipIdx_cons, List.map_cons, List.zipIdx_cons, List.filterMap_cons, List.filter_cons]
      cases hp : p x with
      | false =>
          cases hm : message (x, k) with
          | none => exact ih (k + 1)
          | some r =>
              have hbin := hskip x k r hp hm
              simpa [hbin] using ih (k + 1)
      | true =>
          obtain ⟨r, hm, hbin, houtline⟩ := hsent x k hp
          have hflag : (!r.bin.isEmpty) = true := by simpa using hbin
          simpa [hm, hflag, houtline] using ih (k + 1)

/-- The outline of the reply to a message of `Send_`. -/
theorem outline_slice (tables : ℕ → RangeTable) (kvId src ts : ℕ) (push : Bool) (f : Flags) (i : ℕ)
    (kvs : KVPairs Val) :
    Sent.outline tables
      ⟨kvId, i, ts, f.cmd 0 false i, push, src, sliceBody push (f.zeroCopy i) kvs⟩ =
      if push then none else some ⟨kvs.keys, kvs.keys.length, false⟩ := by
  have hbody : bodyCmd (if f.zeroCopy i then 2 else 0) = if f.zeroCopy i then 2 else 0 := by
    cases f.zeroCopy i <;> rfl
  have hclock : ¬ withMinClockMagic < if f.zeroCopy i then 2 else 0 := by
    cases f.zeroCopy i <;> decide
  cases push with
  | true => rfl
  | false =>
      simp only [Sent.outline, cmd_keys, hbody, decodePull_sliceBody, hclock, Bool.false_eq_true,
        if_false, Option.map_some, decide_false]

/-- The outline of the reply to a message of `SendChunks_`. -/
theorem outline_chunks (tables : ℕ → RangeTable) (kvId src ts : ℕ) (push : Bool) (f : Flags)
    (withMinClock : Bool) (i : ℕ) (chunkIds : List ℕ) (chunks : List (List Val)) :
    Sent.outline tables ⟨kvId, i, ts, f.cmd 1 withMinClock i, push, src,
      chunkBody push (f.zeroCopy i) chunkIds chunks⟩ =
      if push then none
      else some ⟨chunkIds, (chunkIds.flatMap (chunkKeys (tables kvId))).length, withMinClock⟩ := by
  have hcmd : f.cmd 1 withMinClock i % consistencyControlOffMagic =
      (if f.zeroCopy i then 3 else 1) + if withMinClock then withMinClockMagic else 0 := by
    unfold Flags.cmd localZeroCopyMagic withMinClockMagic consistencyControlOffMagic
    cases f.zeroCopy i <;> cases f.consistencyControl <;> cases withMinClock <;> rfl
  have hbody : bodyCmd ((if f.zeroCopy i then 3 else 1) +
      if withMinClock then withMinClockMagic else 0) = if f.zeroCopy i then 3 else 1 := by
    cases f.zeroCopy i <;> cases withMinClock <;> rfl
  have hclock : decide (withMinClockMagic < (if f.zeroCopy i then 3 else 1) +
      if withMinClock then withMinClockMagic else 0) = withMinClock := by
    cases f.zeroCopy i <;> cases withMinClock <;> decide
  cases push with
  | true => rfl
  | false =>
      simp only [Sent.outline, hcmd, hbody, decodePull_chunkBody, hclock, Bool.false_eq_true,
        if_false, Option.map_some]

/-- The messages of `Send_` ask for the parts. -/
theorem outlines_send (tables : ℕ → RangeTable) (kvId src ts : ℕ) (push : Bool)
    (send : KVPairs Val) (ranges : List Range) (f : Flags) :
    (nonemptySlices kvId (send_ src ts push (slice_ send ranges) f)).map (Sent.outline tables) =
      (partsAt (slicePositions send.keys ranges) send.keys).map fun part =>
        if push then none else some ⟨part, part.length, false⟩ := by
  rw [send_, map_nonemptySlices (p := Prod.fst) (g := fun s : Bool × KVPairs Val =>
    if push then none else some ⟨s.2.keys, s.2.keys.length, false⟩)]
  · rw [slice_, List.filter_map, List.map_map, partsAt, List.map_map]
    rfl
  · rintro ⟨nonempty, kvs⟩ i r hempty hr
    obtain rfl : nonempty = false := hempty
    cases hall : f.sendAll with
    | false => simp [hall] at hr
    | true =>
        simp only [hall, Bool.not_true, Bool.false_and, Bool.false_eq_true, if_false,
          Option.some.injEq] at hr
        rw [← hr]
  · rintro ⟨nonempty, kvs⟩ i hnonempty
    obtain rfl : nonempty = true := hnonempty
    refine ⟨_, by simp only [Bool.not_true, Bool.and_false, Bool.false_eq_true, if_false]; rfl, ?_, ?_⟩
    · exact sliceBody_ne_nil push (f.zeroCopy i) kvs
    · exact outline_slice tables kvId src ts push f i kvs

/-- The messages of `SendChunks_` ask for the parts. -/
theorem outlines_sendChunks {tables : ℕ → RangeTable} {kvId src ts : ℕ} {push : Bool}
    {chunkIds pos : List ℕ} {chunks : List (List Val)} {f : Flags} {withMinClock : Bool}
    {messages : List (Option (Request Val))}
    (h : sendChunks_ src ts push chunkIds chunks pos f withMinClock = some messages) :
    (nonemptySlices kvId messages).map (Sent.outline tables) =
      (partsAt pos chunkIds).map fun part => if push then none
        else some ⟨part, (part.flatMap (chunkKeys (tables kvId))).length, withMinClock⟩ := by
  unfold sendChunks_ at h
  split at h
  · cases h
  · obtain rfl := Option.some.inj h
    rw [map_nonemptySlices (p := fun p => p.1 != p.2) (g := fun p : ℕ × ℕ => if push then none
      else some ⟨segment chunkIds p.1 p.2,
        ((segment chunkIds p.1 p.2).flatMap (chunkKeys (tables kvId))).length, withMinClock⟩)]
    · rw [partsAt, List.map_map]
      rfl
    · rintro ⟨a, b⟩ i r hempty hr
      have hab : a = b := by simpa using hempty
      subst hab
      cases hall : f.sendAll with
      | false => simp [hall] at hr
      | true =>
          simp only [hall, Bool.not_true, Bool.false_and, Bool.false_eq_true, if_false, bne_self_eq_false,
            Option.some.injEq] at hr
          rw [← hr]
    · rintro ⟨a, b⟩ i hnonempty
      have hnonempty : (a != b) = true := hnonempty
      have hab : (a == b) = false := by simpa using hnonempty
      refine ⟨_, by simp only [hab, Bool.and_false, Bool.false_eq_true, if_false]; rfl, ?_, ?_⟩
      · simp only [hnonempty, if_true]
        exact chunkBody_ne_nil push (f.zeroCopy i) _ _
      · simp only [hnonempty, if_true]
        exact outline_chunks tables kvId src ts push f withMinClock i _ _

/-- The messages of a request carry its timestamp. -/
theorem ts_of_mem_send {src ts : ℕ} {push : Bool} {sliced : List (Bool × KVPairs Val)} {f : Flags}
    {r : Request Val} (h : some r ∈ send_ src ts push sliced f) : r.ts = ts := by
  obtain ⟨⟨⟨nonempty, kvs⟩, i⟩, -, hr⟩ := List.mem_map.mp h
  simp only at hr
  split at hr
  · cases hr
  · obtain rfl := Option.some.inj hr
    rfl

theorem ts_of_mem_sendChunks {src ts : ℕ} {push : Bool} {chunkIds : List ℕ}
    {chunks : List (List Val)} {pos : List ℕ} {f : Flags} {withMinClock : Bool}
    {messages : List (Option (Request Val))}
    (h : sendChunks_ src ts push chunkIds chunks pos f withMinClock = some messages)
    {r : Request Val} (hr : some r ∈ messages) : r.ts = ts := by
  unfold sendChunks_ at h
  split at h
  · cases h
  · obtain rfl := Option.some.inj h
    obtain ⟨⟨⟨a, b⟩, i⟩, -, hr⟩ := List.mem_map.mp hr
    simp only at hr
    split at hr
    · cases hr
    · obtain rfl := Option.some.inj hr
      rfl

theorem countP_slice_eq_waitNum (send : KVPairs Val) (ranges : List Range) :
    (slice_ send ranges).countP Prod.fst = waitNum (slicePositions send.keys ranges) := by
  rw [slice_, List.countP_map, waitNum]
  rfl

/-- As many chunks as chunk ids. -/
def Call.Matched : Call Val → Prop
  | pushChunks chunkIds chunks | pullChunks chunkIds chunks | pullChunksWithMinClock chunkIds chunks =>
      chunkIds.length = chunks.length
  | _ => True

/-- **A request asks for its parts**, and waits for one reply to each of them. -/
theorem slices_spec {tables : ℕ → RangeTable} {kvId src : ℕ} {f : Flags} {c : Call Val} {m : ℕ}
    {g : ℕ → Option (List (Option (Request Val)))} (h : c.slices (tables kvId) src f = some (m, g))
    {ts : ℕ} {messages : List (Option (Request Val))} (hg : g ts = some messages) :
    m = (c.parts (tables kvId)).length ∧ c.Matched ∧
      (nonemptySlices kvId messages).map (Sent.outline tables) =
        (c.parts (tables kvId)).map (c.outline (tables kvId)) ∧
      ∀ r, some r ∈ messages → r.ts = ts := by
  have hcount : ∀ send : KVPairs Val,
      (slice_ send (tables kvId).serverKeyRanges).countP Prod.fst =
        (partsAt (slicePositions send.keys (tables kvId).serverKeyRanges) send.keys).length := by
    intro send
    rw [countP_slice_eq_waitNum, length_partsAt]
  -- The calls on chunks differ in what they send.
  have hchunks : ∀ (chunkIds : List ℕ) (chunks chunks' : List (List Val)) (push : Bool) (f' : Flags)
      (clock : Bool), (if chunkIds.length ≠ chunks.length then none
        else (partitionChunks_ (tables kvId) chunkIds).bind fun pos =>
          some (waitNum pos, fun ts => sendChunks_ src ts push chunkIds chunks' pos f' clock)) =
        some (m, g) →
      chunkIds.length = chunks.length ∧ ∃ pos, partitionChunks_ (tables kvId) chunkIds = some pos ∧
        m = (partsAt pos chunkIds).length ∧
        sendChunks_ src ts push chunkIds chunks' pos f' clock = some messages := by
    intro chunkIds chunks chunks' push f' clock h
    split at h
    · cases h
    · next hlen =>
        obtain ⟨pos, hpos, h⟩ := Option.bind_eq_some_iff.mp h
        obtain ⟨rfl, rfl⟩ := Prod.mk.inj (Option.some.inj h)
        exact ⟨not_not.mp hlen, pos, hpos, (length_partsAt pos chunkIds).symm, hg⟩
  cases c with
  | push keys vals =>
      obtain ⟨rfl, rfl⟩ := Prod.mk.inj (Option.some.inj h)
      obtain rfl := Option.some.inj hg
      exact ⟨hcount _, trivial, outlines_send tables kvId src ts true _ _ f, fun _ => ts_of_mem_send⟩
  | pull keys =>
      obtain ⟨rfl, rfl⟩ := Prod.mk.inj (Option.some.inj h)
      obtain rfl := Option.some.inj hg
      exact ⟨hcount _, trivial, outlines_send tables kvId src ts false _ _ f, fun _ => ts_of_mem_send⟩
  | pushChunks chunkIds chunks =>
      obtain ⟨hlen, pos, hpos, rfl, hsend⟩ := hchunks chunkIds chunks chunks true f false h
      have hparts : (Call.pushChunks chunkIds chunks).parts (tables kvId) = partsAt pos chunkIds := by
        simp [Call.parts, hpos]
      rw [hparts]
      exact ⟨rfl, hlen, outlines_sendChunks hsend, fun _ => ts_of_mem_sendChunks hsend⟩
  | pullChunks chunkIds chunks =>
      obtain ⟨hlen, pos, hpos, rfl, hsend⟩ := hchunks chunkIds chunks [] false f false h
      have hparts : (Call.pullChunks chunkIds chunks).parts (tables kvId) = partsAt pos chunkIds := by
        simp [Call.parts, hpos]
      rw [hparts]
      exact ⟨rfl, hlen, outlines_sendChunks hsend, fun _ => ts_of_mem_sendChunks hsend⟩
  | pullChunksWithMinClock chunkIds chunks =>
      obtain ⟨hlen, pos, hpos, rfl, hsend⟩ := hchunks chunkIds chunks [] false _ true h
      have hparts : (Call.pullChunksWithMinClock chunkIds chunks).parts (tables kvId) =
          partsAt pos chunkIds := by
        simp [Call.parts, hpos]
      rw [hparts]
      exact ⟨rfl, hlen, outlines_sendChunks hsend, fun _ => ts_of_mem_sendChunks hsend⟩

/-! ## Copying chunks -/

/-- The chunks with these ids can be copied out of `numVals` values. -/
def Copies (t : RangeTable) (part : List ℕ) (numVals : ℕ) : Prop :=
  ∀ p ∈ part.zipIdx, (if p.1 = t.chunkNum - 1 then p.2 else p.2 + 1) * t.chunkSize ≤ numVals

instance decidableCopies (t : RangeTable) (part : List ℕ) (numVals : ℕ) :
    Decidable (Copies t part numVals) :=
  inferInstanceAs (Decidable (∀ p ∈ part.zipIdx, _))

/-- The callback of the call can copy what it gets. -/
def Call.CanCopy (t : RangeTable) (c : Call Val) : Prop :=
  match c with
  | pullChunks _ _ | pullChunksWithMinClock _ _ =>
      ∀ part ∈ c.parts t, Copies t part (part.flatMap (chunkKeys t)).length
  | _ => True

/-- The loop over the chunks of a reply comes to its end if and only if it can copy them. -/
theorem copyChunks_isSome_iff {t : RangeTable} {vals : List Val} {part : List ℕ} {k idx : ℕ}
    {chunks : List (List Val)} (hidx : idx + part.length ≤ chunks.length) :
    (copyChunks t.chunkSize t.chunkNum vals part (k * t.chunkSize) idx chunks).isSome ↔
      ∀ p ∈ part.zipIdx k,
        (if p.1 = t.chunkNum - 1 then p.2 else p.2 + 1) * t.chunkSize ≤ vals.length := by
  induction part generalizing k idx chunks with
  | nil => simp [copyChunks]
  | cons c part ih =>
      rw [List.length_cons] at hidx
      have hnext : k * t.chunkSize + t.chunkSize = (k + 1) * t.chunkSize := by
        rw [Nat.add_mul, Nat.one_mul]
      have hfits : k * t.chunkSize + (if c = t.chunkNum - 1 then vals.length - k * t.chunkSize
          else t.chunkSize) ≤ vals.length ↔
          (if c = t.chunkNum - 1 then k else k + 1) * t.chunkSize ≤ vals.length := by
        split
        · omega
        · rw [hnext]
      have hroom : idx < chunks.length := by omega
      rw [copyChunks, List.zipIdx_cons, List.forall_mem_cons, ← hfits]
      by_cases hcan : k * t.chunkSize + (if c = t.chunkNum - 1 then vals.length - k * t.chunkSize
          else t.chunkSize) ≤ vals.length
      · rw [if_pos ⟨hcan, hroom⟩, hnext, ih (by rw [List.length_set]; omega)]
        exact (and_iff_right hcan).symm
      · rw [if_neg fun hand => hcan hand.1]
        exact iff_of_false Bool.false_ne_true fun hand => hcan hand.1

/-- What the loop over the chunks of a reply leaves. -/
theorem copyChunks_some {chunkSize chunkNum start idx : ℕ} {vals : List Val} {part : List ℕ}
    {chunks : List (List Val)} {r : ℕ × List (List Val)}
    (h : copyChunks chunkSize chunkNum vals part start idx chunks = some r) :
    r.1 = idx + part.length ∧ r.2.length = chunks.length := by
  induction part generalizing start idx chunks with
  | nil =>
      obtain rfl := Option.some.inj h
      exact ⟨rfl, rfl⟩
  | cons c part ih =>
      obtain ⟨-, h⟩ := Option.ite_none_right_eq_some.mp h
      obtain ⟨hidx, hlength⟩ := ih h
      rw [List.length_set] at hlength
      exact ⟨by rw [hidx, List.length_cons]; omega, hlength⟩

/-- The loop over the replies comes to its end if and only if it can copy their chunks. -/
theorem fillChunks_isSome_iff {t : RangeTable} {recv : List (KVPairs Val)} {idx : ℕ}
    {chunks : List (List Val)} (hidx : idx + (recv.map fun kvs => kvs.keys.length).sum ≤ chunks.length) :
    (fillChunks t.chunkSize t.chunkNum recv idx chunks).isSome ↔
      ∀ kvs ∈ recv, Copies t kvs.keys kvs.vals.length := by
  induction recv generalizing idx chunks with
  | nil => simp [fillChunks]
  | cons kvs recv ih =>
      rw [List.map_cons, List.sum_cons] at hidx
      have hfirst : (copyChunks t.chunkSize t.chunkNum kvs.vals kvs.keys (0 * t.chunkSize) idx
          chunks).isSome ↔ _ := copyChunks_isSome_iff (by omega)
      rw [Nat.zero_mul] at hfirst
      rw [fillChunks, List.forall_mem_cons, Copies, ← hfirst]
      cases hcopy : copyChunks t.chunkSize t.chunkNum kvs.vals kvs.keys 0 idx chunks with
      | none => simp
      | some r =>
          obtain ⟨hnext, hlength⟩ := copyChunks_some hcopy
          have hroom : r.1 + (recv.map fun kvs => kvs.keys.length).sum ≤ r.2.length := by omega
          simpa using ih hroom

/-- The parts of a chunk pull are together no longer than its list of chunks. -/
theorem sum_chunkParts_le {t : RangeTable} {chunkIds : List ℕ} :
    ((((partitionChunks_ t chunkIds).map fun pos => partsAt pos chunkIds).getD []).map
      List.length).sum ≤ chunkIds.length := by
  cases hpos : partitionChunks_ t chunkIds with
  | none => exact Nat.zero_le _
  | some pos => exact (positions_partitionChunks hpos).sum_partsAt_le

/-- The replies to all parts of a chunk pull can be copied if and only if each part can be. -/
theorem fillChunks_parts {t : RangeTable} {parts : List (List ℕ)} {recv sorted : List (KVPairs Val)}
    {chunks : List (List Val)} (hsum : (parts.map List.length).sum ≤ chunks.length)
    (hsorted : sorted.Perm recv)
    (hrecv : (recv.map fun kvs => (kvs.keys, kvs.vals.length)).Perm
      (parts.map fun part => (part, (part.flatMap (chunkKeys t)).length))) :
    (fillChunks t.chunkSize t.chunkNum sorted 0 chunks).isSome ↔
      ∀ part ∈ parts, Copies t part (part.flatMap (chunkKeys t)).length := by
  have hperm := (hsorted.map fun kvs => (kvs.keys, kvs.vals.length)).trans hrecv
  have hlengths : (sorted.map fun kvs => kvs.keys.length).sum = (parts.map List.length).sum := by
    have hkeys := (hperm.map fun p => p.1.length).sum_eq
    simpa [List.map_map, Function.comp_def] using hkeys
  rw [fillChunks_isSome_iff (by omega)]
  constructor
  · intro hcopies part hpart
    obtain ⟨kvs, hkvs, heq⟩ := List.mem_map.mp
      (hperm.mem_iff.mpr (List.mem_map_of_mem (f := fun part =>
        (part, (part.flatMap (chunkKeys t)).length)) hpart))
    obtain ⟨rfl, hvals⟩ := Prod.mk.inj heq
    exact hvals ▸ hcopies kvs hkvs
  · intro hcopies kvs hkvs
    obtain ⟨part, hpart, heq⟩ := List.mem_map.mp
      (hperm.mem_iff.mp (List.mem_map_of_mem (f := fun kvs : KVPairs Val =>
        (kvs.keys, kvs.vals.length)) hkvs))
    obtain ⟨rfl, hvals⟩ := Prod.mk.inj heq
    exact hvals ▸ hcopies _ hpart

/-! ## What has been recorded -/

/-- The outlines of the recorded replies. -/
def Recv.outlines : Recv Val → List Outline
  | kvs recv => recv.map fun kvs => ⟨kvs.keys, kvs.vals.length, false⟩
  | withMinClock recv => recv.map fun s => ⟨s.1.keys, s.1.vals.length, true⟩

/-- The replies are recorded with their clocks. -/
def Recv.clocked : Recv Val → Bool
  | kvs _ => false
  | withMinClock _ => true

theorem perm_sortByFront {α : Type} (f : α → ℕ) (recv : List α) : (sortByFront f recv).Perm recv :=
  List.perm_insertionSort _ recv

/-- **The callback comes to its end** with the replies to all parts if and only if it can copy what
it gets. -/
theorem Callback.run_isSome_iff {t : RangeTable} {c : Call Val} {cb : Callback Val} {recv : Recv Val}
    (hcb : c.callback = some cb) (hmatched : c.Matched) (hclocked : recv.clocked = c.withMinClock)
    (hrecv : (recv.outlines.map some).Perm ((c.parts t).map (c.outline t))) :
    (cb.run t recv).isSome ↔ c.CanCopy t := by
  -- Both chunk pulls go through the same loops.
  have hcontents : ∀ {l : List (KVPairs Val)} {clocked : Bool}, recv.outlines =
      l.map (fun kvs => ⟨kvs.keys, kvs.vals.length, clocked⟩) → (∀ part, c.outline t part =
        some ⟨part, (part.flatMap (chunkKeys t)).length, clocked⟩) →
      (l.map fun kvs => (kvs.keys, kvs.vals.length)).Perm
        ((c.parts t).map fun part => (part, (part.flatMap (chunkKeys t)).length)) := by
    intro l clocked hl houtline
    have hpairs := hrecv.map fun o : Option Outline => o.elim ([], 0) fun o => (o.keys, o.numVals)
    rw [hl, List.map_map, List.map_map, List.map_map] at hpairs
    simpa [Function.comp_def, houtline] using hpairs
  cases c with
  | push _ _ => cases hcb
  | pushChunks _ _ => cases hcb
  | pull keys =>
      obtain rfl := Option.some.inj hcb
      cases recv with
      | kvs recv => exact iff_of_true rfl trivial
      | withMinClock recv => cases hclocked
  | pullChunks chunkIds chunks =>
      obtain rfl := Option.some.inj hcb
      cases recv with
      | kvs recv =>
          rw [Callback.run, Option.isSome_map]
          exact fillChunks_parts (sum_chunkParts_le.trans_eq hmatched) (perm_sortByFront _ recv)
            (hcontents rfl fun _ => rfl)
      | withMinClock recv => cases hclocked
  | pullChunksWithMinClock chunkIds chunks =>
      obtain rfl := Option.some.inj hcb
      cases recv with
      | kvs recv => cases hclocked
      | withMinClock recv =>
          rw [Callback.run, Option.isSome_map]
          have hsorted := (perm_sortByFront (fun s : KVPairs Val × ℤ => front s.1) recv).map Prod.fst
          refine fillChunks_parts (sum_chunkParts_le.trans_eq hmatched) hsorted
            (hcontents ?_ fun _ => rfl)
          rw [Recv.outlines, List.map_map]
          rfl

/-! ## Sorted lists -/

/-- Sorted keys or chunk ids in range, and no pull that names the last chunk twice. -/
def Call.InOrder (t : RangeTable) : Call Val → Prop
  | push keys _ | pull keys => keys.Pairwise (· ≤ ·) ∧ ∀ k ∈ keys, k < t.maxKey
  | pushChunks chunkIds _ | pullChunks chunkIds _ | pullChunksWithMinClock chunkIds _ =>
      t.InOrder chunkIds ∧ ∀ c ∈ chunkIds, c < t.chunkNum

/-- The keys or chunk ids of a call. -/
def Call.listed : Call Val → List ℕ
  | push keys _ | pull keys => keys
  | pushChunks chunkIds _ | pullChunks chunkIds _ | pullChunksWithMinClock chunkIds _ => chunkIds

/-- Some server has a part of a list that is not empty. -/
theorem exists_part_iff {t : RangeTable} {n : ℕ} (ht : t.Partitioned n) {f : ℕ → ℕ} {xs : List ℕ}
    (hsorted : xs.Pairwise fun x y => f x ≤ f y) (hlt : ∀ x ∈ xs, f x < t.maxKey) :
    (∃ i, i ∈ (List.range n).filter fun i =>
      !(between f (t.keyBound n i) (t.keyBound n (i + 1)) xs).isEmpty) ↔ xs ≠ [] := by
  have hpart : ∀ i, (i ∈ (List.range n).filter fun i =>
      !(between f (t.keyBound n i) (t.keyBound n (i + 1)) xs).isEmpty) ↔
      ∃ x ∈ xs, t.owner (f x) = i := by
    intro i
    rw [← ht.between_ne_nil_iff hsorted hlt i, List.mem_filter, List.mem_range]
    simp
  simp only [hpart]
  constructor
  · rintro ⟨i, x, hx, -⟩
    exact List.ne_nil_of_mem hx
  · intro hne
    obtain ⟨x, hx⟩ := List.exists_mem_of_ne_nil _ hne
    exact ⟨_, x, hx, rfl⟩

/-- A call whose list is in order has a part unless the list is empty. -/
theorem Call.parts_ne_nil_iff {t : RangeTable} {n : ℕ} (ht : t.Partitioned n) {c : Call Val}
    (horder : c.InOrder t) : c.parts t ≠ [] ↔ c.listed ≠ [] := by
  have hkeys : ∀ keys : List ℕ, keys.Pairwise (· ≤ ·) → (∀ k ∈ keys, k < t.maxKey) →
      (partsAt (slicePositions keys t.serverKeyRanges) keys ≠ [] ↔ keys ≠ []) := by
    intro keys hsorted hlt
    rw [← List.length_pos_iff, length_partsAt,
      ← countP_slice_eq_waitNum (⟨keys, []⟩ : KVPairs Val), countP_slice ht _ hsorted,
      List.length_pos_iff_exists_mem]
    exact exists_part_iff (f := id) ht hsorted hlt
  have hchunks : ∀ chunkIds : List ℕ, t.InOrder chunkIds → (∀ c ∈ chunkIds, c < t.chunkNum) →
      (((partitionChunks_ t chunkIds).map fun pos => partsAt pos chunkIds).getD [] ≠ [] ↔
        chunkIds ≠ []) := by
    intro chunkIds hids hlt
    have hsorted : chunkIds.Pairwise (· ≤ ·) := hids.imp And.left
    rw [ht.partitionChunks_eq hsorted hlt, Option.map_some, Option.getD_some, ← List.length_pos_iff,
      length_partsAt, waitNum_partition hsorted, List.length_pos_iff_exists_mem]
    exact exists_part_iff ht (hsorted.imp fun h => Nat.mul_le_mul_right _ h) fun c hc =>
      ht.chunk_lt (hlt c hc)
  cases c with
  | push keys _ => exact hkeys keys horder.1 horder.2
  | pull keys => exact hkeys keys horder.1 horder.2
  | pushChunks chunkIds _ => exact hchunks chunkIds horder.1 horder.2
  | pullChunks chunkIds _ => exact hchunks chunkIds horder.1 horder.2
  | pullChunksWithMinClock chunkIds _ => exact hchunks chunkIds horder.1 horder.2

/-- Chunks in order can be copied. -/
theorem copies_of_inOrder {t : RangeTable} {part : List ℕ} (horder : t.InOrder part) :
    Copies t part (part.flatMap (chunkKeys t)).length := by
  suffices h : ∀ k, ∀ p ∈ part.zipIdx k,
      (if p.1 = t.chunkNum - 1 then p.2 else p.2 + 1) * t.chunkSize ≤
        k * t.chunkSize + (part.flatMap (chunkKeys t)).length by
    simpa [Copies] using h 0
  induction part with
  | nil => simp
  | cons c part ih =>
      obtain ⟨hc, hrest⟩ := List.pairwise_cons.mp horder
      intro k
      have hnext : (k + 1) * t.chunkSize = k * t.chunkSize + t.chunkSize := by
        rw [Nat.add_mul, Nat.one_mul]
      have hsize : c ≠ t.chunkNum - 1 → (chunkKeys t c).length = t.chunkSize := by
        intro hne
        rw [chunkKeys, List.length_range', RangeTable.realChunkSize, if_neg hne]
      rw [List.zipIdx_cons, List.forall_mem_cons, List.flatMap_cons, List.length_append]
      constructor
      · simp only
        split
        · exact Nat.le_add_right _ _
        · next hne =>
            rw [hnext, hsize hne]
            omega
      · intro p hp
        have hlast : c ≠ t.chunkNum - 1 := (hc p.1 (List.fst_mem_of_mem_zipIdx hp)).2
        have hle := ih hrest (k + 1) p hp
        rw [hsize hlast]
        omega

/-- A callback can copy what it gets for a list in order. -/
theorem Call.canCopy_of_inOrder {t : RangeTable} {c : Call Val} (horder : c.InOrder t) :
    c.CanCopy t := by
  have hparts : ∀ chunkIds, t.InOrder chunkIds →
      ∀ part ∈ ((partitionChunks_ t chunkIds).map fun pos => partsAt pos chunkIds).getD [],
        Copies t part (part.flatMap (chunkKeys t)).length := by
    intro chunkIds hids part hpart
    cases hpos : partitionChunks_ t chunkIds with
    | none => simp [hpos] at hpart
    | some pos =>
        rw [hpos, Option.map_some, Option.getD_some] at hpart
        obtain ⟨p, -, rfl⟩ := List.mem_map.mp hpart
        have hsub : (segment chunkIds p.1 p.2).Sublist chunkIds :=
          (List.take_sublist _ _).trans (List.drop_sublist _ _)
        exact copies_of_inOrder (hids.sublist hsub)
  cases c with
  | push _ _ | pull _ | pushChunks _ _ => trivial
  | pullChunks chunkIds _ => exact hparts chunkIds horder.1
  | pullChunksWithMinClock chunkIds _ => exact hparts chunkIds horder.1

end FlexPS.KVStore
