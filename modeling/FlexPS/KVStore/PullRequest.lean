import FlexPS.KVStore.KVWorker

/-!
# The slices of a pull

On a table cut at the chunk bounds a valid `Pull` or `PullChunks` asks every server for
the part of the request that lies in its range, waits for one reply per non-empty part,
and every encoding of a part decodes to that part.

## Main definitions

* `Call.ValidPull`, `Call.FitsPull` — what a caller of `Pull` and `PullChunks` has to respect.
* `Call.part`, `Call.touched` — what a server is asked for, and the keys it reads.
* `IsSlice` — a message that asks for a part.
* `slices_pull`, `isSlice_pullMessage` — the messages of a valid pull.
-/

namespace FlexPS.KVStore

open Lib

variable {Val : Type}

namespace Call

/-- Keys or chunk ids are strictly increasing, in range, and there is at least one. -/
def ValidPull (t : RangeTable) : Call Val → Prop
  | pull keys => keys ≠ [] ∧ keys.Pairwise (· < ·) ∧ ∀ k ∈ keys, k < t.maxKey
  | pullChunks chunkIds chunks =>
      chunkIds ≠ [] ∧ chunkIds.Pairwise (· < ·) ∧ (∀ c ∈ chunkIds, c < t.chunkNum) ∧
        chunkIds.length = chunks.length
  | _ => False

instance (t : RangeTable) (c : Call Val) : Decidable (c.ValidPull t) := by
  cases c <;> unfold ValidPull <;> infer_instance

/-- The same without a least number of keys, and where keys may repeat. -/
def FitsPull (t : RangeTable) : Call Val → Prop
  | pull keys => keys.Pairwise (· ≤ ·) ∧ ∀ k ∈ keys, k < t.maxKey
  | pullChunks chunkIds chunks =>
      chunkIds.Pairwise (· < ·) ∧ (∀ c ∈ chunkIds, c < t.chunkNum) ∧
        chunkIds.length = chunks.length
  | _ => False

theorem ValidPull.fits {t : RangeTable} {c : Call Val} (hc : c.ValidPull t) : c.FitsPull t := by
  cases c with
  | pull keys => exact ⟨hc.2.1.imp fun h => Nat.le_of_lt h, hc.2.2⟩
  | pullChunks chunkIds chunks => exact hc.2
  | push _ _ => exact hc.elim
  | pushChunks _ _ => exact hc.elim
  | pullChunksWithMinClock _ _ => exact hc.elim

/-- The keys or chunk ids of a call that lie in the range of server `i`. -/
def part (t : RangeTable) (n i : ℕ) : Call Val → List ℕ
  | push keys _ => t.keysOf n i keys
  | pull keys => t.keysOf n i keys
  | pushChunks chunkIds _ => t.chunksOf n i chunkIds
  | pullChunks chunkIds _ => t.chunksOf n i chunkIds
  | pullChunksWithMinClock chunkIds _ => t.chunksOf n i chunkIds

/-- The keys a server reads for a part. -/
def touched (t : RangeTable) (part : List ℕ) : Call Val → List ℕ
  | push _ _ => part
  | pull _ => part
  | pushChunks _ _ => part.flatMap (chunkKeys t)
  | pullChunks _ _ => part.flatMap (chunkKeys t)
  | pullChunksWithMinClock _ _ => part.flatMap (chunkKeys t)

/-- The servers a call asks for something. -/
def asked (t : RangeTable) (n : ℕ) (c : Call Val) : List ℕ :=
  (List.range n).filter fun i => !(c.part t n i).isEmpty

end Call

/-- A message that asks for a part: nothing or an empty body for an empty part, and a body
that decodes to the part otherwise. -/
def IsSlice (t : RangeTable) (src ts : ℕ) (c : Call Val) (part : List ℕ) :
    Option (Request Val) → Prop
  | none => part = []
  | some r => r.ts = ts ∧ r.src = src ∧ r.push = false ∧ (r.bin = [] ↔ part = []) ∧
      r.cmd % consistencyControlOffMagic ≤ 3 ∧
      (part ≠ [] → decodePull t (r.cmd % consistencyControlOffMagic) r.bin =
        some (part, c.touched t part))

/-! ## Encodings -/

theorem cmd_keys (f : Flags) (i : ℕ) :
    f.cmd 0 false i % consistencyControlOffMagic = if f.zeroCopy i then 2 else 0 := by
  unfold Flags.cmd localZeroCopyMagic withMinClockMagic consistencyControlOffMagic
  cases f.zeroCopy i <;> cases f.consistencyControl <;> rfl

theorem cmd_chunks (f : Flags) (i : ℕ) :
    f.cmd 1 false i % consistencyControlOffMagic = if f.zeroCopy i then 3 else 1 := by
  unfold Flags.cmd localZeroCopyMagic withMinClockMagic consistencyControlOffMagic
  cases f.zeroCopy i <;> cases f.consistencyControl <;> rfl

theorem sliceBody_ne_nil (push zeroCopy : Bool) (kvs : KVPairs Val) :
    sliceBody push zeroCopy kvs ≠ [] := by
  cases zeroCopy <;> cases push <;> simp [sliceBody, Cell.kvPtrCodec]

theorem chunkBody_ne_nil (push zeroCopy : Bool) (chunkIds : List ℕ) (chunks : List (List Val)) :
    chunkBody push zeroCopy chunkIds chunks ≠ [] := by
  cases zeroCopy <;> simp [chunkBody, Cell.chunkPtrCodec]

/-- Every encoding of keys asks for these keys. -/
theorem decodePull_sliceBody (t : RangeTable) (zeroCopy : Bool) (kvs : KVPairs Val) :
    decodePull t (if zeroCopy then 2 else 0) (sliceBody false zeroCopy kvs) =
      some (kvs.keys, kvs.keys) := by
  cases zeroCopy <;> simp [sliceBody, decodePull]

/-- Every encoding of chunk ids asks for these chunks. -/
theorem decodePull_chunkBody (t : RangeTable) (zeroCopy : Bool) (chunkIds : List ℕ)
    (chunks : List (List Val)) :
    decodePull t (if zeroCopy then 3 else 1) (chunkBody false zeroCopy chunkIds chunks) =
      some (chunkIds, chunkIds.flatMap (chunkKeys t)) := by
  cases zeroCopy <;> simp [chunkBody, decodePull]

/-! ## The messages of a pull -/

theorem zipIdx_map_range {α : Type} (g : ℕ → α) (n : ℕ) :
    ((List.range n).map g).zipIdx = (List.range n).map fun i => (g i, i) := by
  apply List.ext_getElem
  · simp
  · intro i h₁ h₂
    simp

/-- The message of one slice, whichever way its body is encoded. -/
def sliceMessage (src ts cmd : ℕ) (push sendAll : Bool) (part : List ℕ) (body : BinStream Val) :
    Option (Request Val) :=
  if !sendAll && part.isEmpty then none
  else some { ts, cmd, push, src, bin := if part.isEmpty then [] else body }

theorem isSlice_sliceMessage {t : RangeTable} {src ts cmd : ℕ} {sendAll : Bool} {c : Call Val}
    {part : List ℕ} {body : BinStream Val} (hbody : body ≠ [])
    (hcmd : cmd % consistencyControlOffMagic ≤ 3)
    (hdecode : decodePull t (cmd % consistencyControlOffMagic) body =
      some (part, c.touched t part)) :
    IsSlice t src ts c part (sliceMessage src ts cmd false sendAll part body) := by
  cases part with
  | nil => cases sendAll <;> simp [sliceMessage, IsSlice, hcmd]
  | cons k ks => simpa [sliceMessage, IsSlice, hcmd, hbody] using hdecode

/-- The values `Slice_` puts into the slice of server `i`. -/
def RangeTable.valsOf (t : RangeTable) (n i : ℕ) (send : KVPairs Val) : List Val :=
  segment send.vals
    (below id send.keys (t.keyBound n i) * (send.vals.length / send.keys.length))
    (below id send.keys (t.keyBound n (i + 1)) * (send.vals.length / send.keys.length))

/-- The chunks `SendChunks_` puts into the slice of server `i`. -/
def RangeTable.chunkValsOf (t : RangeTable) (n i : ℕ) (chunkIds : List ℕ)
    (chunks : List (List Val)) : List (List Val) :=
  segment chunks (below (· * t.chunkSize) chunkIds (t.keyBound n i))
    (below (· * t.chunkSize) chunkIds (t.keyBound n (i + 1)))

/-- The message of a `Pull` or `PullChunks` for server `i`. -/
def Call.pullMessage (t : RangeTable) (n src ts : ℕ) (f : Flags) :
    Call Val → ℕ → Option (Request Val)
  | pull keys, i =>
      sliceMessage src ts (f.cmd 0 false i) false f.sendAll (t.keysOf n i keys)
        (sliceBody false (f.zeroCopy i) ⟨t.keysOf n i keys, t.valsOf n i ⟨keys, []⟩⟩)
  | pullChunks chunkIds _, i =>
      sliceMessage src ts (f.cmd 1 false i) false f.sendAll (t.chunksOf n i chunkIds)
        (chunkBody false (f.zeroCopy i) (t.chunksOf n i chunkIds) (t.chunkValsOf n i chunkIds []))
  | _, _ => none

/-- The piece of server `i`, and when it is empty. -/
theorem segment_chunks {t : RangeTable} {n : ℕ} {chunkIds : List ℕ}
    (hsorted : chunkIds.Pairwise (· ≤ ·)) (i : ℕ) :
    segment chunkIds (below (· * t.chunkSize) chunkIds (t.keyBound n i))
        (below (· * t.chunkSize) chunkIds (t.keyBound n (i + 1))) = t.chunksOf n i chunkIds ∧
      (below (· * t.chunkSize) chunkIds (t.keyBound n i) !=
        below (· * t.chunkSize) chunkIds (t.keyBound n (i + 1))) =
          !(t.chunksOf n i chunkIds).isEmpty := by
  have hle := t.keyBound_mono n (Nat.le_succ i)
  have hscaled : chunkIds.Pairwise fun a b => a * t.chunkSize ≤ b * t.chunkSize :=
    hsorted.imp fun h => Nat.mul_le_mul_right _ h
  have hpiece := segment_below hscaled hle
  refine ⟨hpiece, ?_⟩
  rw [← segment_isEmpty (below_mono chunkIds hle) (below_le_length _ _), hpiece]
  rfl

/-- The messages `SendChunks_` makes of sorted chunk ids. -/
theorem sendChunks_partition {t : RangeTable} {n : ℕ} (src ts : ℕ) (push : Bool) (f : Flags)
    (withMinClock : Bool) (hclock : withMinClock = true → f.consistencyControl = true)
    {chunkIds : List ℕ} (chunks : List (List Val)) (hsorted : chunkIds.Pairwise (· ≤ ·)) :
    sendChunks_ src ts push chunkIds chunks ((List.range (n + 1)).map fun i =>
        below (· * t.chunkSize) chunkIds (t.keyBound n i)) f withMinClock =
      some ((List.range n).map fun i => sliceMessage src ts (f.cmd 1 withMinClock i) push f.sendAll
        (t.chunksOf n i chunkIds)
        (chunkBody push (f.zeroCopy i) (t.chunksOf n i chunkIds)
          (t.chunkValsOf n i chunkIds chunks))) := by
  have hthrows : (withMinClock && !f.consistencyControl) = false := by
    cases withMinClock with
    | false => rfl
    | true => simp [hclock rfl]
  rw [sendChunks_, pieces_map_range, zipIdx_map_range, List.map_map]
  simp only [hthrows, Bool.false_eq_true, if_false, Option.some.injEq]
  refine List.map_congr_left fun i _ => ?_
  obtain ⟨hpiece, hempty⟩ := segment_chunks (t := t) (n := n) hsorted i
  have hempty' : (below (· * t.chunkSize) chunkIds (t.keyBound n i) ==
      below (· * t.chunkSize) chunkIds (t.keyBound n (i + 1))) =
        (t.chunksOf n i chunkIds).isEmpty := by
    rw [← Bool.not_inj_iff, ← hempty]
    rfl
  simp only [Function.comp_apply, sliceMessage, hpiece, hempty, hempty']
  cases (t.chunksOf n i chunkIds).isEmpty <;> rfl

theorem waitNum_partition {t : RangeTable} {n : ℕ} {chunkIds : List ℕ}
    (hsorted : chunkIds.Pairwise (· ≤ ·)) :
    waitNum ((List.range (n + 1)).map fun i =>
        below (· * t.chunkSize) chunkIds (t.keyBound n i)) =
      ((List.range n).filter fun i => !(t.chunksOf n i chunkIds).isEmpty).length := by
  rw [waitNum, pieces_map_range, List.countP_map, List.countP_eq_length_filter]
  congr 2
  funext i
  exact (segment_chunks hsorted i).2

section Slices

variable {t : RangeTable} {n : ℕ} (ht : t.Partitioned n)
include ht

/-- The messages `Send_` makes of sorted keys. -/
theorem send_slice (src ts : ℕ) (push : Bool) (f : Flags) (send : KVPairs Val)
    (hsorted : send.keys.Pairwise (· ≤ ·)) :
    send_ src ts push (slice_ send t.serverKeyRanges) f =
      (List.range n).map fun i => sliceMessage src ts (f.cmd 0 false i) push f.sendAll
        (t.keysOf n i send.keys)
        (sliceBody push (f.zeroCopy i) ⟨t.keysOf n i send.keys, t.valsOf n i send⟩) := by
  rw [send_, ht.slice_eq send hsorted, zipIdx_map_range, List.map_map]
  refine List.map_congr_left fun i _ => ?_
  simp only [Function.comp_apply, sliceMessage]
  cases (t.keysOf n i send.keys).isEmpty <;> rfl

/-- As many slices of sorted keys are not empty as servers are asked. -/
theorem countP_slice (send : KVPairs Val) (hsorted : send.keys.Pairwise (· ≤ ·)) :
    (slice_ send t.serverKeyRanges).countP Prod.fst =
      ((List.range n).filter fun i => !(t.keysOf n i send.keys).isEmpty).length := by
  rw [ht.slice_eq send hsorted, List.countP_map, List.countP_eq_length_filter]
  rfl

/-- **The messages of a valid pull**: one slot per server, and as many replies to wait for
as there are servers asked. -/
theorem slices_pull (src : ℕ) (f : Flags) {c : Call Val} (hc : c.FitsPull t) :
    c.slices t src f = some ((c.asked t n).length, fun ts =>
      some ((List.range n).map (c.pullMessage t n src ts f))) := by
  cases c with
  | pull keys =>
      obtain ⟨hsorted, -⟩ := hc
      simp only [Call.slices, countP_slice ht ⟨keys, []⟩ hsorted,
        send_slice ht src _ false f ⟨keys, []⟩ hsorted]
      rfl
  | pullChunks chunkIds chunks =>
      obtain ⟨hstrict, hlt, hlen⟩ := hc
      have hsorted : chunkIds.Pairwise (· ≤ ·) := hstrict.imp fun h => Nat.le_of_lt h
      simp only [Call.slices, hlen, ne_eq, not_true_eq_false, if_false,
        ht.partitionChunks_eq hsorted hlt, Option.bind_eq_bind, Option.bind_some,
        waitNum_partition hsorted, sendChunks_partition _ _ _ _ false (by simp) _ hsorted]
      rfl
  | push _ _ => exact hc.elim
  | pushChunks _ _ => exact hc.elim
  | pullChunksWithMinClock _ _ => exact hc.elim

end Slices

/-- Every message of a valid pull asks for its server's part. -/
theorem isSlice_pullMessage {t : RangeTable} (n src ts : ℕ) (f : Flags) {c : Call Val}
    (hc : c.FitsPull t) (i : ℕ) :
    IsSlice t src ts c (c.part t n i) (c.pullMessage t n src ts f i) := by
  cases c with
  | pull keys =>
      apply isSlice_sliceMessage (sliceBody_ne_nil _ _ _)
      · rw [cmd_keys]
        split <;> omega
      · rw [cmd_keys]
        exact decodePull_sliceBody t _ _
  | pullChunks chunkIds chunks =>
      apply isSlice_sliceMessage (chunkBody_ne_nil _ _ _ _)
      · rw [cmd_chunks]
        split <;> omega
      · rw [cmd_chunks]
        exact decodePull_chunkBody t _ _ _
  | push _ _ => exact hc.elim
  | pushChunks _ _ => exact hc.elim
  | pullChunksWithMinClock _ _ => exact hc.elim

end FlexPS.KVStore
