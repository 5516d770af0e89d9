import FlexPS.Lib.Lockstep
import FlexPS.KVStore.SSPServer
import FlexPS.KVStore.PullCorrect

/-!
# Encodings of a request

A caller may have a slice sent as a pointer to a server in its own process, and may have
empty slices left out.  The plain encoding copies every slice and sends the empty ones too.
A message and its plain version mean the same to a server: they decode to the same entries
or keys, and their replies to the same content.

## Main definitions

* `Flags.plain` — the encoding everything else is compared with.
* `Alike` — two replies the worker cannot tell apart.
* `Recoded`, `RecodedClock` — two encodings of one request.
* `Slot` — what is sent, and what is sent in the plain encoding.
* `issue_plain` — a call in two encodings.
-/

namespace FlexPS.KVStore

open Lib

variable {Val : Type}

/-- `local_zero_copy = false` and `send_all = true`. -/
def Flags.plain (f : Flags) : Flags := { f with localZeroCopy := false, sendAll := true }

/-! ## Replies -/

/-- Two streams the worker cannot tell apart. -/
def SameArrival (x y : BinStream Val) : Prop :=
  ∀ (tables : ℕ → RangeTable) (w : KVWorker Val), w.receive tables x = w.receive tables y

/-- Two replies to one sender that it cannot tell apart. -/
def Alike (r r' : Reply Val) : Prop := r.src = r'.src ∧ SameArrival (response r) (response r')

theorem Alike.refl (r : Reply Val) : Alike r r := ⟨rfl, fun _ _ => rfl⟩

/-- What follows the request's key in a reply. -/
def replyBody (r : Reply Val) : BinStream Val :=
  Cell.nat.put r.cmd ++ Cell.boolCodec.put r.push ++ Cell.nat.put r.src ++
    (if r.cmd = 2 ∧ r.push = false then Cell.kvPtrCodec.put r.res
      else Cell.words.put r.res.keys ++ Cell.vals.put r.res.vals) ++
    (if r.minClock ≠ -1 then Cell.intCodec.put r.minClock else [])

/-- Replies to one request that decode alike are alike. -/
theorem alike_of_decode {r r' : Reply Val} (hkv : r.kvId = r'.kvId) (hts : r.ts = r'.ts)
    (hsrc : r.src = r'.src)
    (hdecode : KVWorker.decodeReply (replyBody r) = KVWorker.decodeReply (replyBody r')) :
    Alike r r' := by
  have hbody : ∀ r : Reply Val,
      response r = Cell.nat.put r.kvId ++ (Cell.nat.put r.ts ++ replyBody r) := by
    intro r
    simp [response, replyBody, List.append_assoc]
  refine ⟨hsrc, fun tables w => ?_⟩
  simp only [hbody, KVWorker.receive, Codec.get_put_append, Option.bind_eq_bind, Option.bind_some,
    KVWorker.uniqueProcess, hkv, hts, hdecode]

/-- An acknowledgement carries nothing. -/
theorem alike_push {r r' : Reply Val} (hkv : r.kvId = r'.kvId) (hts : r.ts = r'.ts)
    (hsrc : r.src = r'.src) (hpush : r.push = true) (hpush' : r'.push = true) : Alike r r' := by
  refine alike_of_decode hkv hts hsrc ?_
  simp [KVWorker.decodeReply, replyBody, List.append_assoc, hpush, hpush']

/-- The answer to a pull carries its keys and values. -/
theorem decodeReply_pull {r : Reply Val} (hpush : r.push = false) (hcmd : r.cmd ≤ 3)
    (hclock : r.minClock = -1) : KVWorker.decodeReply (replyBody r) = some (some (r.res, none)) := by
  have hdecode := KVWorker.decodeReply_response hcmd r.src r.res
  simpa [replyBody, hpush, hclock] using hdecode

/-- The answer to a pull with min clock also carries the clock. -/
theorem decodeReply_clock {r : Reply Val} (hpush : r.push = false) (hcmd : r.cmd = 11 ∨ r.cmd = 13)
    (hclock : r.minClock ≠ -1) :
    KVWorker.decodeReply (replyBody r) = some (some (r.res, some r.minClock)) := by
  have hmod : r.cmd % consistencyControlOffMagic = r.cmd := Nat.mod_eq_of_lt (by
    unfold consistencyControlOffMagic
    omega)
  have htwo : r.cmd ≠ 2 := by omega
  have hcode : r.cmd = 13 ∨ r.cmd = 11 := hcmd.symm
  simp [KVWorker.decodeReply, replyBody, List.append_assoc, hpush, hclock, hmod, htwo, hcode]

/-! ## Requests -/

/-- Two encodings of a `Push`, `Pull`, `PushChunks` or `PullChunks` slice. -/
structure Recoded (t : RangeTable) (r r' : Request Val) : Prop where
  ts : r.ts = r'.ts
  src : r.src = r'.src
  push : r.push = r'.push
  cmd : r.cmd % consistencyControlOffMagic ≤ 3
  cmd' : r'.cmd % consistencyControlOffMagic ≤ 3
  bin : r.bin = [] ↔ r'.bin = []
  decodePush : r.push = true → r.bin ≠ [] →
    decodePush t (r.cmd % consistencyControlOffMagic) r.bin =
      decodePush t (r'.cmd % consistencyControlOffMagic) r'.bin
  decodePull : r.push = false → r.bin ≠ [] →
    decodePull t (r.cmd % consistencyControlOffMagic) r.bin =
      decodePull t (r'.cmd % consistencyControlOffMagic) r'.bin

/-- Two encodings of a `PullChunksWithMinClock` slice. -/
structure RecodedClock (t : RangeTable) (r r' : Request Val) : Prop where
  ts : r.ts = r'.ts
  src : r.src = r'.src
  push : r.push = false
  push' : r'.push = false
  cmd : r.cmd = 11 ∨ r.cmd = 13
  cmd' : r'.cmd = 11 ∨ r'.cmd = 13
  bin : r.bin = [] ↔ r'.bin = []
  decodePull : r.bin ≠ [] →
    decodePull t (bodyCmd r.cmd) r.bin = decodePull t (bodyCmd r'.cmd) r'.bin

/-- What is sent to a server, and what is sent in the plain encoding: an empty slice may be
left out. -/
inductive Slot (M : Request Val → Request Val → Prop) :
    Option (Request Val) → Option (Request Val) → Prop
  | skip {r : Request Val} : M r r → r.bin = [] → Slot M none (some r)
  | sent {r r' : Request Val} : M r r' → Slot M (some r) (some r')

/-! ## Encodings of a body -/

theorem decodePush_sliceBody (t : RangeTable) (zeroCopy : Bool) (kvs : KVPairs Val) :
    decodePush t (if zeroCopy then 2 else 0) (sliceBody true zeroCopy kvs) =
      pairUp kvs.keys kvs.vals := by
  cases zeroCopy <;> simp [sliceBody, decodePush]

theorem decodePush_chunkBody (t : RangeTable) (zeroCopy : Bool) {chunkIds : List ℕ}
    {chunks : List (List Val)} (hlen : chunkIds.length = chunks.length) :
    decodePush t (if zeroCopy then 3 else 1) (chunkBody true zeroCopy chunkIds chunks) =
      some ((chunkIds.zip chunks).flatMap (chunkPairs t.chunkSize)) := by
  have hread := Cell.vals.getN_flatMap chunks ([] : BinStream Val)
  rw [List.append_nil] at hread
  cases zeroCopy
  · simp [chunkBody, decodePush, hread, pairUp, hlen]
  · simp [chunkBody, decodePush, pairUp, hlen]

theorem cmd_clock {f : Flags} (hcontrol : f.consistencyControl = true) (i : ℕ) :
    f.cmd 1 true i = if f.zeroCopy i then 13 else 11 := by
  unfold Flags.cmd localZeroCopyMagic withMinClockMagic
  rw [hcontrol]
  cases f.zeroCopy i <;> rfl

/-- The message of one slice of `Send_`. -/
def sliceRequest (src ts : ℕ) (push : Bool) (f : Flags) (nonempty : Bool) (kvs : KVPairs Val)
    (i : ℕ) : Request Val :=
  { ts, cmd := f.cmd 0 false i, push, src
    bin := if nonempty then sliceBody push (f.zeroCopy i) kvs else [] }

/-- The message of one slice of `SendChunks_`. -/
def chunkRequest (src ts : ℕ) (push : Bool) (f : Flags) (withMinClock nonempty : Bool)
    (chunkIds : List ℕ) (chunks : List (List Val)) (i : ℕ) : Request Val :=
  { ts, cmd := f.cmd 1 withMinClock i, push, src
    bin := if nonempty then chunkBody push (f.zeroCopy i) chunkIds chunks else [] }

theorem recoded_slice (t : RangeTable) (src ts : ℕ) (push : Bool) (f g : Flags) (nonempty : Bool)
    (kvs : KVPairs Val) (i : ℕ) :
    Recoded t (sliceRequest src ts push f nonempty kvs i)
      (sliceRequest src ts push g nonempty kvs i) := by
  have hcmd : ∀ f : Flags, f.cmd 0 false i % consistencyControlOffMagic ≤ 3 := by
    intro f
    rw [cmd_keys]
    split <;> omega
  refine ⟨rfl, rfl, rfl, hcmd f, hcmd g, ?_, ?_, ?_⟩
  · cases nonempty <;> simp [sliceRequest, sliceBody_ne_nil]
  · intro hpush hne
    obtain rfl : push = true := hpush
    cases nonempty with
    | false => exact absurd rfl hne
    | true => simp only [sliceRequest, cmd_keys, if_true, decodePush_sliceBody]
  · intro hpush hne
    obtain rfl : push = false := hpush
    cases nonempty with
    | false => exact absurd rfl hne
    | true => simp only [sliceRequest, cmd_keys, if_true, decodePull_sliceBody]

theorem recoded_chunks (t : RangeTable) (src ts : ℕ) (push : Bool) (f g : Flags) (nonempty : Bool)
    {chunkIds : List ℕ} {chunks : List (List Val)}
    (hlen : push = true → chunkIds.length = chunks.length) (i : ℕ) :
    Recoded t (chunkRequest src ts push f false nonempty chunkIds chunks i)
      (chunkRequest src ts push g false nonempty chunkIds chunks i) := by
  have hcmd : ∀ f : Flags, f.cmd 1 false i % consistencyControlOffMagic ≤ 3 := by
    intro f
    rw [cmd_chunks]
    split <;> omega
  refine ⟨rfl, rfl, rfl, hcmd f, hcmd g, ?_, ?_, ?_⟩
  · cases nonempty <;> simp [chunkRequest, chunkBody_ne_nil]
  · intro hpush hne
    obtain rfl : push = true := hpush
    cases nonempty with
    | false => exact absurd rfl hne
    | true => simp only [chunkRequest, cmd_chunks, if_true, decodePush_chunkBody t _ (hlen rfl)]
  · intro hpush hne
    obtain rfl : push = false := hpush
    cases nonempty with
    | false => exact absurd rfl hne
    | true => simp only [chunkRequest, cmd_chunks, if_true, decodePull_chunkBody]

theorem recodedClock_chunks (t : RangeTable) (src ts : ℕ) {f g : Flags}
    (hf : f.consistencyControl = true) (hg : g.consistencyControl = true) (nonempty : Bool)
    (chunkIds : List ℕ) (chunks : List (List Val)) (i : ℕ) :
    RecodedClock t (chunkRequest src ts false f true nonempty chunkIds chunks i)
      (chunkRequest src ts false g true nonempty chunkIds chunks i) := by
  have hcmd : ∀ {f : Flags}, f.consistencyControl = true →
      f.cmd 1 true i = 11 ∨ f.cmd 1 true i = 13 := by
    intro f hf
    rw [cmd_clock hf]
    split <;> omega
  have hbody : ∀ {f : Flags}, f.consistencyControl = true →
      bodyCmd (f.cmd 1 true i) = if f.zeroCopy i then 3 else 1 := by
    intro f hf
    rw [cmd_clock hf]
    cases f.zeroCopy i <;> rfl
  refine ⟨rfl, rfl, rfl, rfl, hcmd hf, hcmd hg, ?_, ?_⟩
  · cases nonempty <;> simp [chunkRequest, chunkBody_ne_nil]
  · intro hne
    cases nonempty with
    | false => exact absurd rfl hne
    | true => simp only [chunkRequest, hbody hf, hbody hg, if_true, decodePull_chunkBody]

/-! ## A call in two encodings -/

/-- A slice that is empty may be left out. -/
theorem slot_of_recoded {M : Request Val → Request Val → Prop} {r r' : Request Val} (hM : M r r')
    (hplain : M r' r') (leftOut : Bool) (hempty : leftOut = true → r'.bin = []) :
    Slot M (if leftOut then none else some r) (some r') := by
  cases leftOut with
  | true => exact .skip hplain (hempty rfl)
  | false => exact .sent hM

/-- `Send_` in two encodings. -/
theorem send_plain (t : RangeTable) (src ts : ℕ) (push : Bool) (sliced : List (Bool × KVPairs Val))
    (f : Flags) :
    List.Forall₂ (Slot (Recoded t)) (send_ src ts push sliced f)
      (send_ src ts push sliced f.plain) := by
  refine forall₂_map fun x _ => ?_
  obtain ⟨⟨nonempty, kvs⟩, i⟩ := x
  exact slot_of_recoded (recoded_slice t src ts push f f.plain nonempty kvs i)
    (recoded_slice t src ts push f.plain f.plain nonempty kvs i) (!f.sendAll && !nonempty)
    fun h => by
      have hempty : nonempty = false := by simpa using (Bool.and_eq_true_iff.mp h).2
      simp [sliceRequest, hempty]

/-- The body of `SendChunks_` once its check has passed. -/
theorem sendChunks_eq {src ts : ℕ} {push : Bool} {chunkIds : List ℕ} {chunks : List (List Val)}
    {pos : List ℕ} {f : Flags} {withMinClock : Bool}
    (hcheck : (withMinClock && !f.consistencyControl) = false) :
    sendChunks_ src ts push chunkIds chunks pos f withMinClock =
      some ((pieces pos).zipIdx.map fun x =>
        if !f.sendAll && x.1.1 == x.1.2 then none
        else some (chunkRequest src ts push f withMinClock (x.1.1 != x.1.2)
          (segment chunkIds x.1.1 x.1.2) (segment chunks x.1.1 x.1.2) x.2)) := by
  rw [sendChunks_, hcheck]
  rfl

/-- `SendChunks_` in two encodings. -/
theorem sendChunks_plain {M : Request Val → Request Val → Prop} {src ts : ℕ} {push : Bool}
    {chunkIds : List ℕ} {chunks : List (List Val)} {pos : List ℕ} {f : Flags} {withMinClock : Bool}
    (hcheck : (withMinClock && !f.consistencyControl) = false)
    (hM : ∀ g ∈ [f, f.plain], ∀ nonempty a b i,
      M (chunkRequest src ts push g withMinClock nonempty (segment chunkIds a b)
        (segment chunks a b) i) (chunkRequest src ts push f.plain withMinClock nonempty
          (segment chunkIds a b) (segment chunks a b) i)) :
    Option.Rel (List.Forall₂ (Slot M)) (sendChunks_ src ts push chunkIds chunks pos f withMinClock)
      (sendChunks_ src ts push chunkIds chunks pos f.plain withMinClock) := by
  rw [sendChunks_eq hcheck, sendChunks_eq (f := f.plain) hcheck]
  refine .some (forall₂_map fun x _ => ?_)
  exact slot_of_recoded (hM f (by simp) _ _ _ _) (hM f.plain (by simp) _ _ _ _)
    (!f.sendAll && x.1.1 == x.1.2) fun h => by
      have hempty : x.1.1 = x.1.2 := by simpa using (Bool.and_eq_true_iff.mp h).2
      simp [chunkRequest, hempty]

/-- What two encodings of a slice of a call have in common. -/
def Call.Recodes (t : RangeTable) : Call Val → Request Val → Request Val → Prop
  | pullChunksWithMinClock _ _ => RecodedClock t
  | _ => Recoded t

/-- The slices of a call in two encodings: the same number of replies to wait for, and
messages that mean the same. -/
theorem slices_plain (t : RangeTable) (src : ℕ) (f : Flags) (c : Call Val) :
    Option.Rel (fun p q => p.1 = q.1 ∧
        ∀ ts, Option.Rel (List.Forall₂ (Slot (c.Recodes t))) (p.2 ts) (q.2 ts))
      (c.slices t src f) (c.slices t src f.plain) := by
  have hchunks : ∀ {chunkIds : List ℕ} {chunks : List (List Val)} {push : Bool} (pos : List ℕ) ts,
      (push = true → chunkIds.length = chunks.length) →
      Option.Rel (List.Forall₂ (Slot (Recoded t)))
        (sendChunks_ src ts push chunkIds chunks pos f false)
        (sendChunks_ src ts push chunkIds chunks pos f.plain false) := by
    intro chunkIds chunks push pos ts hlen
    refine sendChunks_plain rfl fun g _ nonempty a b i => ?_
    refine recoded_chunks t src ts push g f.plain nonempty (fun hpush => ?_) i
    simp only [Lib.segment, List.length_take, List.length_drop, hlen hpush]
  cases c with
  | push keys vals => exact .some ⟨rfl, fun ts => .some (send_plain t src ts true _ f)⟩
  | pull keys => exact .some ⟨rfl, fun ts => .some (send_plain t src ts false _ f)⟩
  | pushChunks chunkIds chunks =>
      simp only [Call.slices]
      split
      · exact .none
      · next hlen =>
          refine rel_bind (rel_refl (R := Eq) (fun _ => rfl) _) fun pos _ hpos => ?_
          subst hpos
          exact .some ⟨rfl, fun ts => hchunks pos ts fun _ => not_not.mp hlen⟩
  | pullChunks chunkIds chunks =>
      simp only [Call.slices]
      split
      · exact .none
      · refine rel_bind (rel_refl (R := Eq) (fun _ => rfl) _) fun pos _ hpos => ?_
        subst hpos
        exact .some ⟨rfl, fun ts => hchunks pos ts fun h => absurd h (by simp)⟩
  | pullChunksWithMinClock chunkIds chunks =>
      simp only [Call.slices]
      split
      · exact .none
      · refine rel_bind (rel_refl (R := Eq) (fun _ => rfl) _) fun pos _ hpos => ?_
        subst hpos
        refine .some ⟨rfl, fun ts => ?_⟩
        have hcheck : (true && !({ f with consistencyControl := true } : Flags).consistencyControl) =
            false := rfl
        refine sendChunks_plain hcheck fun g hg nonempty a b i => ?_
        have hcontrol : g.consistencyControl = true := by
          rcases List.mem_cons.mp hg with rfl | hg
          · rfl
          · rw [List.mem_singleton.mp hg]
            rfl
        exact recodedClock_chunks t src ts hcontrol rfl nonempty _ _ i

/-- **A call in two encodings**: the same timestamp and the same worker, and messages that
mean the same. -/
theorem issue_plain (tables : ℕ → RangeTable) (src : ℕ) (w : KVWorker Val) (kvId : ℕ)
    (c : Call Val) (f : Flags) :
    Option.Rel (fun p q => p.1 = q.1 ∧ p.2.1 = q.2.1 ∧
        List.Forall₂ (Slot (c.Recodes (tables kvId))) p.2.2 q.2.2)
      (c.issue tables src w kvId f) (c.issue tables src w kvId f.plain) := by
  refine rel_bind (slices_plain (tables kvId) src f c) fun p q hpq => ?_
  obtain ⟨hwait, hmessages⟩ := hpq
  simp only [hwait]
  refine rel_bind (hmessages _) fun m m' hm => ?_
  exact .some ⟨rfl, rfl, hm⟩

end FlexPS.KVStore
