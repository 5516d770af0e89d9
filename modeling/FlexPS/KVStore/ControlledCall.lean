import FlexPS.KVStore.PushRequest
import FlexPS.KVStore.SSPServer

/-!
# Calls under consistency control

A call of a worker under BSP or SSP goes to every server, also to those that own nothing of
it.  On a table cut at the chunk bounds, with sorted keys or chunk ids, the request for every
server has a closed form, and its body decodes to the part of that server.

## Main definitions

* `Call.Sorted` — sorted keys or chunk ids in range; there may be none, and some twice.
* `Call.messages` — the messages a call sends.
* `Call.bodyFor`, `Call.request` — the body and the request for one server.
* `messages_sorted`, `decodePush_bodyFor`, `decodePull_bodyFor` — what is sent.
-/

namespace FlexPS.KVStore

open Lib

variable {Val : Type}

namespace Call

/-- Keys or chunk ids are sorted and in range; every key has a value and every chunk all values
of the chunk. -/
def Sorted (t : RangeTable) : Call Val → Prop
  | push keys vals =>
      keys.Pairwise (· ≤ ·) ∧ (∀ k ∈ keys, k < t.maxKey) ∧ keys.length = vals.length
  | pull keys => keys.Pairwise (· ≤ ·) ∧ ∀ k ∈ keys, k < t.maxKey
  | pushChunks ids chunks =>
      ids.Pairwise (· ≤ ·) ∧ (∀ c ∈ ids, c < t.chunkNum) ∧ ids.length = chunks.length ∧
        ∀ p ∈ ids.zip chunks, p.2.length = t.realChunkSize p.1
  | pullChunks ids chunks | pullChunksWithMinClock ids chunks =>
      ids.Pairwise (· ≤ ·) ∧ (∀ c ∈ ids, c < t.chunkNum) ∧ ids.length = chunks.length

instance (t : RangeTable) (c : Call Val) : Decidable (c.Sorted t) :=
  match c with
  | push _ _ | pull _ | pushChunks _ _ | pullChunks _ _ | pullChunksWithMinClock _ _ =>
      inferInstanceAs (Decidable (_ ∧ _))

/-- The call asks for the clock. -/
def withMinClock : Call Val → Bool
  | pullChunksWithMinClock _ _ => true
  | _ => false

/-- The messages a call sends, once it has a timestamp. -/
def messages (t : RangeTable) (src ts : ℕ) (f : Flags) (c : Call Val) :
    Option (List (Option (Request Val))) := do
  let (_, send) ← c.slices t src f
  send ts

/-- The command for server `i`. -/
def cmdFor (f : Flags) (i : ℕ) : Call Val → ℕ
  | push _ _ | pull _ => f.cmd 0 false i
  | pushChunks _ _ | pullChunks _ _ => f.cmd 1 false i
  | pullChunksWithMinClock _ _ => f.cmd 1 true i

/-- The encoding of the part of server `i`. -/
def encoded (t : RangeTable) (n : ℕ) (f : Flags) (i : ℕ) : Call Val → BinStream Val
  | push keys vals =>
      sliceBody true (f.zeroCopy i) ⟨t.keysOf n i keys, t.valsOf n i ⟨keys, vals⟩⟩
  | pull keys => sliceBody false (f.zeroCopy i) ⟨t.keysOf n i keys, t.valsOf n i ⟨keys, []⟩⟩
  | pushChunks ids chunks =>
      chunkBody true (f.zeroCopy i) (t.chunksOf n i ids) (t.chunkValsOf n i ids chunks)
  | pullChunks ids _ | pullChunksWithMinClock ids _ =>
      chunkBody false (f.zeroCopy i) (t.chunksOf n i ids) (t.chunkValsOf n i ids [])

/-- The command and the body for server `i`. -/
def bodyFor (t : RangeTable) (n : ℕ) (f : Flags) (i : ℕ) (c : Call Val) : Body Val :=
  ⟨c.cmdFor f i, if (c.part t n i).isEmpty then [] else c.encoded t n f i⟩

/-- The request for server `i`. -/
def request (t : RangeTable) (n src ts : ℕ) (f : Flags) (c : Call Val) (i : ℕ) : Request Val :=
  { ts, cmd := (c.bodyFor t n f i).cmd, push := c.isPush, src, bin := (c.bodyFor t n f i).bin }

end Call

/-! ## What is sent -/

section Messages

variable {t : RangeTable} {n : ℕ} {f : Flags} {c : Call Val}

theorem sliceMessage_all {src ts cmd : ℕ} {push : Bool} (hall : f.sendAll = true)
    {part : List ℕ} {body : BinStream Val} :
    sliceMessage src ts cmd push f.sendAll part body =
      some { ts, cmd, push, src, bin := if part.isEmpty then [] else body } := by
  rw [sliceMessage, hall]
  rfl

/-- **The messages of a call under consistency control**: one request for every server. -/
theorem messages_sorted (ht : t.Partitioned n) (hall : f.sendAll = true)
    (hcontrol : f.consistencyControl = true) (hc : c.Sorted t) (src ts : ℕ) :
    c.messages t src ts f = some ((List.range n).map fun i => some (c.request t n src ts f i)) := by
  have hchunks : ∀ (push clock : Bool) {ids : List ℕ} (chunks : List (List Val)),
      ids.Pairwise (· ≤ ·) → (∀ c ∈ ids, c < t.chunkNum) →
      ((partitionChunks_ t ids).bind fun pos => sendChunks_ src ts push ids chunks pos f clock) =
        some ((List.range n).map fun i => some
          { ts, cmd := f.cmd 1 clock i, push, src
            bin := if (t.chunksOf n i ids).isEmpty then []
              else chunkBody push (f.zeroCopy i) (t.chunksOf n i ids)
                (t.chunkValsOf n i ids chunks) }) := by
    intro push clock ids chunks hsorted hlt
    rw [ht.partitionChunks_eq hsorted hlt, Option.bind_some,
      sendChunks_partition src ts push f clock (fun _ => hcontrol) chunks hsorted]
    simp only [sliceMessage_all hall]
  have hflags : ({ f with consistencyControl := true } : Flags) = f := by
    cases f
    simp_all
  cases c with
  | push keys vals =>
      simp only [Call.messages, Call.slices, Option.bind_eq_bind, Option.bind_some,
        send_slice ht src ts true f ⟨keys, vals⟩ hc.1, sliceMessage_all hall]
      rfl
  | pull keys =>
      simp only [Call.messages, Call.slices, Option.bind_eq_bind, Option.bind_some,
        send_slice ht src ts false f ⟨keys, []⟩ hc.1, sliceMessage_all hall]
      rfl
  | pushChunks ids chunks =>
      have hsend := hchunks true false chunks hc.1 hc.2.1
      simp only [Call.messages, Call.slices, hc.2.2.1, ne_eq, not_true_eq_false, if_false,
        Option.bind_eq_bind, Option.bind_assoc, Option.bind_some]
      exact hsend
  | pullChunks ids chunks =>
      have hsend := hchunks false false [] hc.1 hc.2.1
      simp only [Call.messages, Call.slices, hc.2.2, ne_eq, not_true_eq_false, if_false,
        Option.bind_eq_bind, Option.bind_assoc, Option.bind_some]
      exact hsend
  | pullChunksWithMinClock ids chunks =>
      have hsend := hchunks false true [] hc.1 hc.2.1
      simp only [Call.messages, Call.slices, hc.2.2, hflags, ne_eq, not_true_eq_false, if_false,
        Option.bind_eq_bind, Option.bind_assoc, Option.bind_some]
      exact hsend

/-! ## What is received -/

theorem cmd_plain (hcontrol : f.consistencyControl = true) (i : ℕ) :
    f.cmd 0 false i = (if f.zeroCopy i then 2 else 0) ∧
      f.cmd 1 false i = if f.zeroCopy i then 3 else 1 := by
  unfold Flags.cmd localZeroCopyMagic withMinClockMagic
  rw [hcontrol]
  cases f.zeroCopy i <;> exact ⟨rfl, rfl⟩

theorem encoded_ne_nil (i : ℕ) : c.encoded t n f i ≠ [] := by
  cases c with
  | push keys vals => exact sliceBody_ne_nil _ _ _
  | pull keys => exact sliceBody_ne_nil _ _ _
  | pushChunks ids chunks => exact chunkBody_ne_nil _ _ _ _
  | pullChunks ids chunks => exact chunkBody_ne_nil _ _ _ _
  | pullChunksWithMinClock ids chunks => exact chunkBody_ne_nil _ _ _ _

/-- The body is empty exactly when the part is. -/
theorem bodyFor_bin_eq_nil {i : ℕ} : (c.bodyFor t n f i).bin = [] ↔ c.part t n i = [] := by
  cases hpart : c.part t n i <;> simp [Call.bodyFor, hpart, encoded_ne_nil]

theorem bodyFor_bin {i : ℕ} (hpart : c.part t n i ≠ []) :
    (c.bodyFor t n f i).bin = c.encoded t n f i := by
  simp [Call.bodyFor, hpart]

theorem controlled_cmdFor (hcontrol : f.consistencyControl = true) (i : ℕ) :
    Controlled (c.cmdFor f i) := by
  have hplain := cmd_plain hcontrol i
  have hclock := cmd_clock hcontrol i
  cases c <;> cases hzero : f.zeroCopy i <;>
    simp [Call.cmdFor, hplain, hclock, hzero, Controlled, consistencyControlOffMagic]

/-- The clock is asked for with a large command. -/
theorem clock_cmdFor (hcontrol : f.consistencyControl = true) (i : ℕ) :
    c.cmdFor f i > withMinClockMagic ↔ c.withMinClock = true := by
  have hplain := cmd_plain hcontrol i
  have hclock := cmd_clock hcontrol i
  cases c <;> cases hzero : f.zeroCopy i <;>
    simp [Call.cmdFor, hplain, hclock, hzero, Call.withMinClock, withMinClockMagic]

/-- **What a push carries**: the entries of its server. -/
theorem decodePush_bodyFor (hcontrol : f.consistencyControl = true) (hc : c.Sorted t)
    (hpush : c.isPush = true) {i : ℕ} (hpart : c.part t n i ≠ []) :
    decodePush t (c.bodyFor t n f i).cmd (c.bodyFor t n f i).bin = some (c.entriesOf t n i) := by
  rw [bodyFor_bin hpart]
  cases c with
  | push keys vals =>
      rw [Call.bodyFor, Call.cmdFor, (cmd_plain hcontrol i).1]
      exact decodePush_push n i _ hc.1 hc.2.2
  | pushChunks ids chunks =>
      rw [Call.bodyFor, Call.cmdFor, (cmd_plain hcontrol i).2]
      exact decodePush_pushChunks n i _ hc.1 hc.2.2.1
  | pull _ => cases hpush
  | pullChunks _ _ => cases hpush
  | pullChunksWithMinClock _ _ => cases hpush

/-- **What a pull asks for**: the part of its server. -/
theorem decodePull_bodyFor (hcontrol : f.consistencyControl = true) (hpull : c.isPush = false)
    {i : ℕ} (hpart : c.part t n i ≠ []) :
    decodePull t (bodyCmd (c.bodyFor t n f i).cmd) (c.bodyFor t n f i).bin =
      some (c.part t n i, c.touched t (c.part t n i)) := by
  rw [bodyFor_bin hpart]
  cases c with
  | pull keys =>
      have hcmd : bodyCmd (f.cmd 0 false i) = if f.zeroCopy i then 2 else 0 := by
        rw [(cmd_plain hcontrol i).1]
        cases f.zeroCopy i <;> rfl
      simp only [Call.bodyFor, Call.cmdFor, hcmd]
      exact decodePull_sliceBody t _ _
  | pullChunks ids chunks =>
      have hcmd : bodyCmd (f.cmd 1 false i) = if f.zeroCopy i then 3 else 1 := by
        rw [(cmd_plain hcontrol i).2]
        cases f.zeroCopy i <;> rfl
      simp only [Call.bodyFor, Call.cmdFor, hcmd]
      exact decodePull_chunkBody t _ _ _
  | pullChunksWithMinClock ids chunks =>
      have hcmd : bodyCmd (f.cmd 1 true i) = if f.zeroCopy i then 3 else 1 := by
        rw [cmd_clock hcontrol i]
        cases f.zeroCopy i <;> rfl
      simp only [Call.bodyFor, Call.cmdFor, hcmd]
      exact decodePull_chunkBody t _ _ _
  | push _ _ => cases hpull
  | pushChunks _ _ => cases hpull

/-! ## Whose keys -/

variable (ht : t.Partitioned n)
include ht

/-- A server gets entries of its own range only. -/
theorem entriesOf_sorted (hc : c.Sorted t) {i : ℕ} {p : ℕ × Val} (hp : p ∈ c.entriesOf t n i) :
    t.keyBound n i ≤ p.1 ∧ p.1 < t.keyBound n (i + 1) := by
  cases c with
  | push keys vals => exact (mem_between.mp hp).2
  | pushChunks ids chunks =>
      obtain ⟨x, hx, hp⟩ := List.mem_flatMap.mp hp
      obtain ⟨hmem, hlo, hhi⟩ := mem_between.mp hx
      have hin : x.1 ∈ t.chunksOf n i ids := mem_between.mpr ⟨(List.of_mem_zip hmem).1, hlo, hhi⟩
      obtain ⟨j, hval, hkey⟩ := mem_chunkPairs.mp hp
      obtain ⟨hj, -⟩ := List.getElem?_eq_some_iff.mp hval
      rw [hc.2.2.2 x hmem] at hj
      refine chunkKeys_bounds ht hc.2.1 hin ?_
      rw [chunkKeys, List.mem_range'_1]
      omega
  | pull _ => cases hp
  | pullChunks _ _ => cases hp
  | pullChunksWithMinClock _ _ => cases hp

/-- A server reads keys of its own range only. -/
theorem touched_sorted (hc : c.Sorted t) (hpull : c.isPush = false) {i k : ℕ}
    (hk : k ∈ c.touched t (c.part t n i)) : t.keyBound n i ≤ k ∧ k < t.keyBound n (i + 1) := by
  cases c with
  | pull keys => exact (mem_between.mp hk).2
  | pullChunks ids chunks =>
      obtain ⟨c, hmem, hk⟩ := List.mem_flatMap.mp hk
      exact chunkKeys_bounds ht hc.2.1 hmem hk
  | pullChunksWithMinClock ids chunks =>
      obtain ⟨c, hmem, hk⟩ := List.mem_flatMap.mp hk
      exact chunkKeys_bounds ht hc.2.1 hmem hk
  | push _ _ => cases hpull
  | pushChunks _ _ => cases hpull

end Messages

end FlexPS.KVStore
