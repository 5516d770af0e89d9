import FlexPS.Lib.Machine
import FlexPS.Lib.ZeroMap
import FlexPS.KVStore.Storage
import Mathlib.Tactic.Linarith

/-!
# Workers with a map as thread cache

`PSMapNoneWorker` and `PSMapChunkWorker` keep values they have pulled in one
`unordered_map` with one timestamp.  A `Pull` fetches the keys that are missing, or all of
them when the map is empty or too old.  The first worker fetches from the servers and stamps
the map with the number of the pull; the second one fetches from the cache of its process and
stamps the map with the clock it is told.  A `Push` also adds to the map.

## Main definitions

* `PSMapWorker` — the fields the two workers share.
* `PSMapNoneWorker.pull`, `PSMapChunkWorker.pull`, `PSMapWorker.push` — the calls.
* `MapEvent`, `lastFetch` — the history of a worker, and the last fetch of a key in it.
* `cachedReads` — what a `PSMapNoneWorker` returns.
* `servedWithin` — how old what a `PSMapChunkWorker` returns may be.
-/

namespace FlexPS.ML

open KVStore Lib

variable {Val : Type}

/-! ## The workers -/

/-- The fields of `PSMapNoneWorker` and `PSMapChunkWorker`. -/
structure PSMapWorker (Val : Type) [Zero Val] where
  cacheTs : ℤ
  cachedKv : ZeroMap ℕ Val
  pullCount : ℕ
  pushCount : ℕ

namespace PSMapWorker

section Zero

variable [Zero Val]

/-- A new worker.  The constructors do not initialise `cache_ts_`. -/
def new (cacheTs : ℤ) : PSMapWorker Val := ⟨cacheTs, .empty, 0, 0⟩

/-- The map is too old for the pull that is being counted, or empty. -/
def tooOld (staleness : ℕ) (w : PSMapWorker Val) : Bool :=
  decide (w.pullCount - w.cacheTs > staleness) || decide (w.cachedKv.dom = ∅)

/-- `uncached_keys`: the keys to fetch. -/
def uncachedKeys (staleness : ℕ) (w : PSMapWorker Val) (keys : List ℕ) : List ℕ :=
  if w.tooOld staleness then keys else keys.filter fun k => k ∉ w.cachedKv.dom

/-- The worker once a pull is counted. -/
def countPull (w : PSMapWorker Val) : PSMapWorker Val := { w with pullCount := w.pullCount + 1 }

end Zero

/-- `Push` of either worker: what is sent, and what is added to the map. -/
def push [AddMonoid Val] (w : PSMapWorker Val) (keys : List ℕ) (vals : List Val) :
    Option (PSMapWorker Val × List (ℕ × Val)) :=
  if w.pushCount + 1 ≠ w.pullCount then none
  else do
    let pairs ← pairUp keys vals
    some ({ w with pushCount := w.pushCount + 1, cachedKv := w.cachedKv.incrAll pairs }, pairs)

end PSMapWorker

section Pull

variable [Zero Val]

/-- The cache update of `PSMapNoneWorker::Pull`; `answer` is what the servers hold.  When all
keys were fetched the map is emptied first. -/
def PSMapNoneWorker.update (staleness : ℕ) (w : PSMapWorker Val) (keys : List ℕ)
    (answer : ℕ → Val) : PSMapWorker Val :=
  let uncached := w.uncachedKeys staleness keys
  if uncached = [] then w
  else if uncached.length = keys.length then
    { w with cacheTs := w.pullCount, cachedKv := ZeroMap.empty.setAll uncached answer }
  else { w with cachedKv := w.cachedKv.setAll uncached answer }

/-- A pull empties the map when it fetches all of its keys. -/
def PSMapNoneWorker.clears (staleness : ℕ) (w : PSMapWorker Val) (keys : List ℕ) : Prop :=
  w.uncachedKeys staleness keys ≠ [] ∧ (w.uncachedKeys staleness keys).length = keys.length

instance (staleness : ℕ) (w : PSMapWorker Val) (keys : List ℕ) :
    Decidable (PSMapNoneWorker.clears staleness w keys) :=
  inferInstanceAs (Decidable (_ ∧ _))

/-- `PSMapNoneWorker::Pull`. -/
def PSMapNoneWorker.pull (staleness : ℕ) (w : PSMapWorker Val) (keys : List ℕ)
    (answer : ℕ → Val) : Option (PSMapWorker Val × List Val) :=
  if w.pushCount ≠ w.pullCount then none
  else
    let w := PSMapNoneWorker.update staleness w.countPull keys answer
    some (w, keys.map w.cachedKv.get)

/-- `PSMapChunkWorker::Prepare`; `answer` and `clock` are what `PullWithMinClock` returns.  A
map that is too old is emptied. -/
def PSMapChunkWorker.prepare (staleness : ℕ) (w : PSMapWorker Val) (keys : List ℕ)
    (answer : ℕ → Val) (clock : ℤ) : PSMapWorker Val :=
  let uncached := w.uncachedKeys staleness keys
  let w := if w.tooOld staleness then { w with cachedKv := .empty } else w
  if uncached = [] then w
  else
    let w := if keys.length = uncached.length then { w with cacheTs := clock } else w
    { w with cachedKv := w.cachedKv.setAll uncached answer }

/-- `PSMapChunkWorker::Pull`. -/
def PSMapChunkWorker.pull (staleness : ℕ) (w : PSMapWorker Val) (keys : List ℕ)
    (answer : ℕ → Val) (clock : ℤ) : Option (PSMapWorker Val × List Val) :=
  if w.pullCount ≠ w.pushCount then none
  else
    let w := PSMapChunkWorker.prepare staleness w.countPull keys answer clock
    some (w, keys.map w.cachedKv.get)

end Pull

/-! ## Histories -/

/-- A call: a pull with what the fetch will answer, or a push. -/
inductive MapOp (Val : Type) where
  | pull (keys : List ℕ) (answer : ℕ → Val) (clock : ℤ)
  | push (keys : List ℕ) (vals : List Val)

/-- What happened in a call: the number of a pull, whether it emptied the map, which keys it
fetched, what was answered and with which clock, and the values returned; or what was
pushed. -/
inductive MapEvent (Val : Type) where
  | pull (number : ℕ) (cleared : Bool) (fetched : List ℕ) (answer : ℕ → Val) (clock : ℤ)
      (returned : List (ℕ × Val))
  | push (pairs : List (ℕ × Val))

/-- One call of a `PSMapNoneWorker`. -/
def PSMapNoneWorker.step [AddMonoid Val] (staleness : ℕ) (w : PSMapWorker Val) :
    MapOp Val → Option (PSMapWorker Val × List (MapEvent Val))
  | .pull keys answer clock => do
      let (w', vals) ← PSMapNoneWorker.pull staleness w keys answer
      some (w', [.pull w'.pullCount (PSMapNoneWorker.clears staleness w.countPull keys)
        (w.countPull.uncachedKeys staleness keys) answer clock (keys.zip vals)])
  | .push keys vals => do
      let (w', pairs) ← w.push keys vals
      some (w', [.push pairs])

/-- One call of a `PSMapChunkWorker`. -/
def PSMapChunkWorker.step [AddMonoid Val] (staleness : ℕ) (w : PSMapWorker Val) :
    MapOp Val → Option (PSMapWorker Val × List (MapEvent Val))
  | .pull keys answer clock => do
      let (w', vals) ← PSMapChunkWorker.pull staleness w keys answer clock
      some (w', [.pull w'.pullCount (w.countPull.tooOld staleness)
        (w.countPull.uncachedKeys staleness keys) answer clock (keys.zip vals)])
  | .push keys vals => do
      let (w', pairs) ← w.push keys vals
      some (w', [.push pairs])

section LastFetch

variable [AddCommMonoid Val]

/-- The last fetch of a key: the number of the pull, the clock and the answer it got, and the
sum of what was pushed to the key after it. -/
structure LastFetch (Val : Type) where
  number : ℕ
  clock : ℤ
  answer : Val
  pushed : Val

/-- How an event changes the last fetch of a key. -/
def LastFetch.note (k : ℕ) (f : Option (LastFetch Val)) : MapEvent Val → Option (LastFetch Val)
  | .pull number cleared fetched answer clock _ =>
      if k ∈ fetched then some ⟨number, clock, answer k, 0⟩ else if cleared then none else f
  | .push pairs => f.map fun f => { f with pushed := f.pushed + written pairs k }

/-- The last fetch of a key since the map was emptied. -/
def lastFetch (history : List (MapEvent Val)) (k : ℕ) : Option (LastFetch Val) :=
  history.foldl (LastFetch.note k) none

theorem lastFetch_snoc (history : List (MapEvent Val)) (e : MapEvent Val) (k : ℕ) :
    lastFetch (history ++ [e]) k = LastFetch.note k (lastFetch history k) e := by
  simp [lastFetch]

/-- The entries of the map are the keys that were fetched since it was emptied. -/
def Tracks (history : List (MapEvent Val)) (w : PSMapWorker Val) : Prop :=
  ∀ k, k ∈ w.cachedKv.dom ↔ (lastFetch history k).isSome

theorem push_spec {w w' : PSMapWorker Val} {keys : List ℕ} {vals : List Val}
    {pairs : List (ℕ × Val)} (h : w.push keys vals = some (w', pairs)) :
    pairs.map Prod.fst = keys ∧
      w' = { w with pushCount := w.pushCount + 1, cachedKv := w.cachedKv.incrAll pairs } := by
  unfold PSMapWorker.push at h
  split at h
  · cases h
  · simp only [pairUp, Option.bind_eq_bind, Option.bind_eq_some_iff, Option.some.injEq,
      Prod.mk.injEq] at h
    obtain ⟨pairs, hpairs, hw, rfl⟩ := h
    split at hpairs
    · next hlen =>
        obtain rfl := Option.some.inj hpairs
        exact ⟨List.map_fst_zip hlen, hw.symm⟩
    · cases hpairs

/-- A pull replaces or extends the map by what it fetched. -/
theorem Tracks.pull {history : List (MapEvent Val)} {w w' : PSMapWorker Val}
    (h : Tracks history w) (cleared : Bool) {fetched : List ℕ} {answer : ℕ → Val}
    (hw' : w'.cachedKv = (if cleared then .empty else w.cachedKv).setAll fetched answer)
    (number : ℕ) (clock : ℤ) (returned : List (ℕ × Val)) :
    Tracks (history ++ [.pull number cleared fetched answer clock returned]) w' := by
  intro k
  rw [lastFetch_snoc, LastFetch.note, hw', ZeroMap.mem_setAll]
  by_cases hk : k ∈ fetched
  · simp [hk]
  · cases cleared with
    | true => simp [hk]
    | false => simpa [hk] using h k

/-- A push to cached keys adds nothing to the map. -/
theorem Tracks.push {history : List (MapEvent Val)} {w : PSMapWorker Val} (h : Tracks history w)
    {pairs : List (ℕ × Val)} (hcached : ∀ k ∈ pairs.map Prod.fst, k ∈ w.cachedKv.dom)
    (pushCount : ℕ) :
    Tracks (history ++ [.push pairs])
      { w with pushCount, cachedKv := w.cachedKv.incrAll pairs } := by
  intro k
  rw [ZeroMap.mem_incrAll, lastFetch_snoc, LastFetch.note, Option.isSome_map, ← h k]
  exact or_iff_right_of_imp (hcached k)

/-- The keys that are not fetched are cached, and the map is not too old. -/
theorem cached_of_notMem_uncachedKeys {staleness : ℕ} {w : PSMapWorker Val} {keys : List ℕ} {k : ℕ}
    (hk : k ∈ keys) (hnot : k ∉ w.uncachedKeys staleness keys) :
    w.tooOld staleness = false ∧ k ∈ w.cachedKv.dom := by
  unfold PSMapWorker.uncachedKeys at hnot
  split at hnot
  · exact absurd hk hnot
  · next hold =>
      refine ⟨by simpa using hold, ?_⟩
      by_contra hout
      exact hnot (List.mem_filter.mpr ⟨hk, by simpa using hout⟩)

/-- A map that is not too old has entries, and its stamp is at most `staleness` pulls old. -/
theorem of_not_tooOld {staleness : ℕ} {w : PSMapWorker Val} (h : w.tooOld staleness = false) :
    (w.pullCount : ℤ) - w.cacheTs ≤ staleness ∧ w.cachedKv.dom.Nonempty := by
  simp only [PSMapWorker.tooOld, Bool.or_eq_false_iff, decide_eq_false_iff_not] at h
  exact ⟨by omega, Finset.nonempty_of_ne_empty h.2⟩

/-- As many keys are fetched as there are only if all are. -/
theorem uncachedKeys_eq {staleness : ℕ} {w : PSMapWorker Val} {keys : List ℕ}
    (hlen : (w.uncachedKeys staleness keys).length = keys.length) :
    w.uncachedKeys staleness keys = keys := by
  unfold PSMapWorker.uncachedKeys at hlen ⊢
  split
  · rfl
  · next hold =>
      rw [if_neg hold] at hlen
      exact List.filter_sublist.eq_of_length hlen

end LastFetch

/-! ## Reads of `PSMapNoneWorker` -/

section MapNone

variable [AddCommMonoid Val] {staleness : ℕ}

/-- A pull returns for every key what the servers answered at most `staleness` pulls ago, plus
what was pushed since. -/
def CachedRead (staleness : ℕ) (before : List (MapEvent Val)) : MapEvent Val → Prop
  | .pull number cleared fetched answer clock returned => ∀ x ∈ returned, ∃ f,
      lastFetch (before ++ [.pull number cleared fetched answer clock returned]) x.1 = some f ∧
        (number : ℤ) - f.number ≤ staleness ∧ x.2 = f.answer + f.pushed
  | .push _ => True

/-- A push writes keys that are in the map. -/
def PushesCached (w : PSMapWorker Val) : MapOp Val → Prop
  | .push keys _ => ∀ k ∈ keys, k ∈ w.cachedKv.dom
  | .pull _ _ _ => True

/-- The invariant: every entry is what was answered plus what was pushed, and was fetched since
the map was stamped. -/
structure MapNoneInv (staleness : ℕ) (history : List (MapEvent Val)) (w : PSMapWorker Val) :
    Prop where
  tracks : Tracks history w
  entry : ∀ k f, lastFetch history k = some f →
    w.cachedKv.get k = f.answer + f.pushed ∧ w.cacheTs ≤ f.number ∧ f.number ≤ w.pullCount
  reads : Throughout (CachedRead staleness) history

/-- A map that stays although something is fetched is not too old. -/
theorem not_tooOld_of_not_clears {w : PSMapWorker Val} {keys : List ℕ} {k : ℕ}
    (hk : k ∈ w.uncachedKeys staleness keys) (hclear : ¬ PSMapNoneWorker.clears staleness w keys) :
    w.tooOld staleness = false := by
  by_contra hold
  have hall : w.uncachedKeys staleness keys = keys := if_pos (by simpa using hold)
  exact hclear ⟨List.ne_nil_of_mem hk, by rw [hall]⟩

/-- The cache update in one equation. -/
theorem update_eq (w : PSMapWorker Val) (keys : List ℕ) (answer : ℕ → Val) :
    PSMapNoneWorker.update staleness w keys answer = { w with
      cacheTs := if PSMapNoneWorker.clears staleness w keys then (w.pullCount : ℤ) else w.cacheTs
      cachedKv := (if PSMapNoneWorker.clears staleness w keys then .empty else w.cachedKv).setAll
        (w.uncachedKeys staleness keys) answer } := by
  simp only [PSMapNoneWorker.update, PSMapNoneWorker.clears]
  by_cases hnone : w.uncachedKeys staleness keys = []
  · simp [hnone, ZeroMap.setAll]
  · by_cases hall : (w.uncachedKeys staleness keys).length = keys.length
    · simp [hnone, hall]
    · simp [hnone, hall]

/-- The keys of a map that stays are fetched after its stamp. -/
theorem MapNoneInv.stamp_le {history : List (MapEvent Val)} {w : PSMapWorker Val}
    (h : MapNoneInv staleness history w) (hne : w.cachedKv.dom.Nonempty) :
    w.cacheTs ≤ w.pullCount := by
  obtain ⟨k, hk⟩ := hne
  obtain ⟨f, hf⟩ := Option.isSome_iff_exists.mp ((h.tracks k).mp hk)
  have := (h.entry k f hf).2
  omega

theorem MapNoneInv.countPull {history : List (MapEvent Val)} {w : PSMapWorker Val}
    (h : MapNoneInv staleness history w) : MapNoneInv staleness history w.countPull := by
  refine ⟨h.tracks, fun k f hf => ?_, h.reads⟩
  obtain ⟨hget, hts, hnumber⟩ := h.entry k f hf
  exact ⟨hget, hts, hnumber.trans (Nat.le_succ _)⟩

/-- What the cache update leaves in the entry of a key. -/
theorem MapNoneInv.entry_update {history : List (MapEvent Val)} {w : PSMapWorker Val}
    (h : MapNoneInv staleness history w) (keys : List ℕ) (answer : ℕ → Val) (clock : ℤ)
    {returned : List (ℕ × Val)} {k : ℕ} {f : LastFetch Val}
    (hf : lastFetch (history ++ [.pull w.pullCount (PSMapNoneWorker.clears staleness w keys)
      (w.uncachedKeys staleness keys) answer clock returned]) k = some f) :
    let w' := PSMapNoneWorker.update staleness w keys answer
    w'.cachedKv.get k = f.answer + f.pushed ∧ w'.cacheTs ≤ f.number ∧
      f.number ≤ w'.pullCount := by
  rw [lastFetch_snoc, LastFetch.note] at hf
  simp only [update_eq, ZeroMap.get_setAll]
  by_cases hk : k ∈ w.uncachedKeys staleness keys
  · rw [if_pos hk] at hf ⊢
    obtain rfl := Option.some.inj hf
    refine ⟨(add_zero _).symm, ?_, le_rfl⟩
    by_cases hclear : PSMapNoneWorker.clears staleness w keys
    · rw [if_pos hclear]
    · rw [if_neg hclear]
      exact h.stamp_le (of_not_tooOld (not_tooOld_of_not_clears hk hclear)).2
  · rw [if_neg hk] at hf ⊢
    by_cases hclear : PSMapNoneWorker.clears staleness w keys
    · simp [hclear] at hf
    · simp only [hclear, decide_false, Bool.false_eq_true, if_false] at hf ⊢
      exact h.entry k f hf

/-- A pull keeps the invariant and returns what it should. -/
theorem MapNoneInv.update {history : List (MapEvent Val)} {w : PSMapWorker Val}
    (h : MapNoneInv staleness history w) (keys : List ℕ) (answer : ℕ → Val) (clock : ℤ) :
    let w' := PSMapNoneWorker.update staleness w keys answer
    MapNoneInv staleness (history ++ [.pull w.pullCount (PSMapNoneWorker.clears staleness w keys)
      (w.uncachedKeys staleness keys) answer clock (keys.zip (keys.map w'.cachedKv.get))]) w' := by
  intro w'
  have hcached : w'.cachedKv = (if decide (PSMapNoneWorker.clears staleness w keys) then .empty
      else w.cachedKv).setAll (w.uncachedKeys staleness keys) answer := by
    simp [w', update_eq]
  refine ⟨h.tracks.pull _ hcached _ _ _, fun k f hf => h.entry_update keys answer clock hf,
    throughout_snoc.mpr ⟨h.reads, ?_⟩⟩
  intro x hx
  have hkey : x.1 ∈ keys := (List.of_mem_zip hx).1
  have hval : x.2 = w'.cachedKv.get x.1 := by
    rw [← List.map_prod_left_eq_zip, List.mem_map] at hx
    obtain ⟨k, -, rfl⟩ := hx
    rfl
  rw [hval]
  by_cases hin : x.1 ∈ w.uncachedKeys staleness keys
  · have hf : lastFetch (history ++ [.pull w.pullCount (PSMapNoneWorker.clears staleness w keys)
        (w.uncachedKeys staleness keys) answer clock (keys.zip (keys.map w'.cachedKv.get))]) x.1 =
        some ⟨w.pullCount, clock, answer x.1, 0⟩ := by
      rw [lastFetch_snoc, LastFetch.note, if_pos hin]
    exact ⟨_, hf, by simp, (h.entry_update keys answer clock hf).1⟩
  · obtain ⟨hold, hdom⟩ := cached_of_notMem_uncachedKeys hkey hin
    have hclear : ¬ PSMapNoneWorker.clears staleness w keys := by
      intro hclear
      rw [uncachedKeys_eq hclear.2] at hin
      exact hin hkey
    obtain ⟨f, hlast⟩ := Option.isSome_iff_exists.mp ((h.tracks x.1).mp hdom)
    have hf : lastFetch (history ++ [.pull w.pullCount (PSMapNoneWorker.clears staleness w keys)
        (w.uncachedKeys staleness keys) answer clock (keys.zip (keys.map w'.cachedKv.get))]) x.1 =
        some f := by
      rw [lastFetch_snoc, LastFetch.note, if_neg hin, if_neg (by simpa using hclear), hlast]
    refine ⟨f, hf, ?_, (h.entry_update keys answer clock hf).1⟩
    have hage := (of_not_tooOld hold).1
    have hts := (h.entry x.1 f hlast).2.1
    omega

theorem MapNoneInv.push {history : List (MapEvent Val)} {w w' : PSMapWorker Val}
    (h : MapNoneInv staleness history w) {keys : List ℕ} {vals : List Val}
    {pairs : List (ℕ × Val)} (hcached : ∀ k ∈ keys, k ∈ w.cachedKv.dom)
    (hpush : w.push keys vals = some (w', pairs)) :
    MapNoneInv staleness (history ++ [.push pairs]) w' := by
  obtain ⟨hkeys, rfl⟩ := push_spec hpush
  refine ⟨h.tracks.push (by rwa [hkeys]) _, fun k f hf => ?_,
    throughout_snoc.mpr ⟨h.reads, trivial⟩⟩
  rw [lastFetch_snoc, LastFetch.note, Option.map_eq_some_iff] at hf
  obtain ⟨f, hlast, rfl⟩ := hf
  obtain ⟨hget, hts, hnumber⟩ := h.entry k f hlast
  refine ⟨?_, hts, hnumber⟩
  rw [ZeroMap.get_incrAll, hget, add_assoc]
  rfl

/-- A call keeps the invariant. -/
theorem MapNoneInv.step {history : List (MapEvent Val)} {w w' : PSMapWorker Val} {op : MapOp Val}
    {out : List (MapEvent Val)} (h : MapNoneInv staleness history w) (hop : PushesCached w op)
    (hstep : PSMapNoneWorker.step staleness w op = some (w', out)) :
    MapNoneInv staleness (history ++ out) w' := by
  cases op with
  | pull keys answer clock =>
      simp only [PSMapNoneWorker.step, PSMapNoneWorker.pull] at hstep
      split at hstep
      · cases hstep
      · simp only [Option.bind_eq_bind, Option.bind_some, Option.some.injEq,
          Prod.mk.injEq] at hstep
        obtain ⟨rfl, rfl⟩ := hstep
        have hcount : (PSMapNoneWorker.update staleness w.countPull keys answer).pullCount =
            w.countPull.pullCount := by rw [update_eq]
        rw [hcount]
        exact h.countPull.update keys answer clock
  | push keys vals =>
      simp only [PSMapNoneWorker.step, Option.bind_eq_bind, Option.bind_eq_some_iff,
        Option.some.injEq, Prod.mk.injEq] at hstep
      obtain ⟨⟨w₁, pairs⟩, hpush, rfl, rfl⟩ := hstep
      exact h.push hop hpush

/-- **Cached reads.**  In every run of a `PSMapNoneWorker` whose pushes write cached keys only,
every pull returns what the servers answered for the key at most `staleness` pulls ago and
since the map was emptied, plus all pushes to the key since. -/
theorem cachedReads (staleness : ℕ) (cacheTs : ℤ) {ops : List (MapOp Val)}
    (hops : Along (PSMapNoneWorker.step staleness) (fun _ w op => PushesCached w op) []
      (.new cacheTs) ops) {w : PSMapWorker Val} {out : List (MapEvent Val)}
    (hrun : run (PSMapNoneWorker.step staleness) (.new cacheTs) ops = some (w, out)) :
    Throughout (CachedRead staleness) out := by
  have hnew : MapNoneInv staleness [] (.new cacheTs : PSMapWorker Val) := by
    refine ⟨fun k => ?_, fun k f hf => ?_, throughout_nil _⟩
    · simp [PSMapWorker.new, lastFetch]
    · cases hf
  exact (run_along (fun h hop hstep => h.step hop hstep) hnew hops hrun).reads

end MapNone

/-- The second pull asks for a key that was pushed but never fetched. -/
def strayPush : List (MapOp ℤ) :=
  [.pull [0] (fun _ => 10) 0, .push [5] [7], .pull [5] (fun _ => 10) 0]

/-- `operator[]` of the push makes an entry that later passes for a fetched one. -/
theorem cachedReads_fails : ∃ w out,
    run (PSMapNoneWorker.step 1) (.new 0) strayPush = some (w, out) ∧
      ¬ Throughout (CachedRead 1) out := by
  refine ⟨_, [.pull 1 true [0] (fun _ => 10) 0 [(0, 10)], .push [(5, 7)],
    .pull 2 false [] (fun _ => 10) 0 [(5, 7)]], rfl, fun h => ?_⟩
  obtain ⟨f, hf, -⟩ := h [_, _] _ [] rfl (5, 7) (by simp)
  simp [lastFetch, LastFetch.note] at hf

/-- A push to a cached key, which is then pulled again. -/
def cachedPush : List (MapOp ℤ) :=
  [.pull [0, 1] (fun _ => 10) 0, .push [1] [7], .pull [1] (fun _ => 30) 0]

theorem cachedReads_cachedPush : ∃ w out,
    run (PSMapNoneWorker.step 1) (.new 0) cachedPush = some (w, out) ∧
      .pull 2 false [] (fun _ => 30) 0 [(1, 17)] ∈ out ∧ Throughout (CachedRead 1) out := by
  refine ⟨_, [.pull 1 true [0, 1] (fun _ => 10) 0 [(0, 10), (1, 10)], .push [(1, 7)],
    .pull 2 false [] (fun _ => 30) 0 [(1, 17)]], rfl, by simp, ?_⟩
  have hcached : Along (PSMapNoneWorker.step 1) (fun _ w op => PushesCached w op) [] (.new 0)
      cachedPush := by
    refine along_cons rfl trivial (along_cons rfl ?_ (along_cons rfl trivial trivial))
    intro k hk
    rw [List.mem_singleton.mp hk]
    decide
  exact cachedReads 1 0 hcached rfl

/-! ## Reads of `PSMapChunkWorker` -/

section MapChunk

variable [AddCommMonoid Val] {staleness : ℕ}

/-- What a pull takes from the map was fetched with a clock at most `staleness` below the number
of the pull. -/
def ServedWithin (staleness : ℕ) (before : List (MapEvent Val)) : MapEvent Val → Prop
  | .pull number _ fetched _ _ returned => ∀ x ∈ returned, x.1 ∉ fetched → ∃ f,
      lastFetch before x.1 = some f ∧ (number : ℤ) - f.clock ≤ staleness
  | .push _ => True

/-- The keys of a call. -/
def MapEvent.keys : MapEvent Val → List ℕ
  | .pull _ _ _ _ _ returned => returned.map Prod.fst
  | .push pairs => pairs.map Prod.fst

/-- A push is made with the keys of the pull before it. -/
def SameKeys (history : List (MapEvent Val)) : MapOp Val → Prop
  | .push keys _ => history.getLast?.map MapEvent.keys = some keys
  | .pull _ _ _ => True

/-- A pull that adds to a map that stays gets a clock that is not below the stamp when the stamp
stays, and not above it when it becomes the stamp. -/
def KeepsStamp (staleness : ℕ) (w : PSMapWorker Val) : MapOp Val → Prop
  | .pull keys _ clock =>
      let w := w.countPull
      w.tooOld staleness = false → w.uncachedKeys staleness keys ≠ [] →
        if keys.length = (w.uncachedKeys staleness keys).length then clock ≤ w.cacheTs
        else w.cacheTs ≤ clock
  | .push _ _ => True

instance (staleness : ℕ) (w : PSMapWorker Val) : DecidablePred (KeepsStamp staleness w)
  | .pull keys _ clock => inferInstanceAs (Decidable (w.countPull.tooOld staleness = false →
      w.countPull.uncachedKeys staleness keys ≠ [] →
        if keys.length = (w.countPull.uncachedKeys staleness keys).length
          then clock ≤ w.countPull.cacheTs else w.countPull.cacheTs ≤ clock))
  | .push _ _ => inferInstanceAs (Decidable True)

/-- The invariant: every entry was fetched with a clock not below the stamp. -/
structure MapChunkInv (staleness : ℕ) (history : List (MapEvent Val)) (w : PSMapWorker Val) :
    Prop where
  tracks : Tracks history w
  entry : ∀ k f, lastFetch history k = some f → w.cacheTs ≤ f.clock
  last : ∀ e ∈ history.getLast?, ∀ k ∈ e.keys, k ∈ w.cachedKv.dom
  served : Throughout (ServedWithin staleness) history

/-- `Prepare` in one equation. -/
theorem prepare_eq (w : PSMapWorker Val) (keys : List ℕ) (answer : ℕ → Val) (clock : ℤ) :
    PSMapChunkWorker.prepare staleness w keys answer clock = { w with
      cacheTs := if w.uncachedKeys staleness keys ≠ [] ∧
          keys.length = (w.uncachedKeys staleness keys).length then clock else w.cacheTs
      cachedKv := (if w.tooOld staleness then .empty else w.cachedKv).setAll
        (w.uncachedKeys staleness keys) answer } := by
  unfold PSMapChunkWorker.prepare
  by_cases hnone : w.uncachedKeys staleness keys = []
  · cases hold : w.tooOld staleness <;> simp [hnone, ZeroMap.setAll]
  · by_cases hall : keys.length = (w.uncachedKeys staleness keys).length
    · cases hold : w.tooOld staleness <;> simp [hnone, hall]
    · cases hold : w.tooOld staleness <;> simp [hnone, hall]

/-- `Prepare` keeps the stamp below the clocks of the entries. -/
theorem MapChunkInv.entry_prepare {history : List (MapEvent Val)} {w : PSMapWorker Val}
    (h : MapChunkInv staleness history w) {keys : List ℕ} {clock : ℤ}
    (hclock : w.tooOld staleness = false → w.uncachedKeys staleness keys ≠ [] →
      if keys.length = (w.uncachedKeys staleness keys).length then clock ≤ w.cacheTs
      else w.cacheTs ≤ clock) (answer : ℕ → Val) {number : ℕ} {returned : List (ℕ × Val)} {k : ℕ}
    {f : LastFetch Val} (hf : lastFetch (history ++ [.pull number (w.tooOld staleness)
      (w.uncachedKeys staleness keys) answer clock returned]) k = some f) :
    (PSMapChunkWorker.prepare staleness w keys answer clock).cacheTs ≤ f.clock := by
  rw [lastFetch_snoc, LastFetch.note] at hf
  simp only [prepare_eq]
  by_cases hk : k ∈ w.uncachedKeys staleness keys
  · have hne : w.uncachedKeys staleness keys ≠ [] := List.ne_nil_of_mem hk
    rw [if_pos hk] at hf
    obtain rfl := Option.some.inj hf
    by_cases hall : keys.length = (w.uncachedKeys staleness keys).length
    · rw [if_pos ⟨hne, hall⟩]
    · have hold : w.tooOld staleness = false := by
        by_contra hold
        rw [PSMapWorker.uncachedKeys, if_pos (by simpa using hold)] at hall
        exact hall rfl
      have hle := hclock hold hne
      rw [if_neg hall] at hle
      rwa [if_neg fun h => hall h.2]
  · rw [if_neg hk] at hf
    cases hold : w.tooOld staleness with
    | true => simp [hold] at hf
    | false =>
        simp only [hold, Bool.false_eq_true, if_false] at hf
        have hentry := h.entry k f hf
        split
        · next hfull =>
            have hle := hclock hold hfull.1
            rw [if_pos hfull.2] at hle
            omega
        · exact hentry

/-- A pull keeps the invariant and serves nothing that is too old. -/
theorem MapChunkInv.prepare {history : List (MapEvent Val)} {w : PSMapWorker Val}
    (h : MapChunkInv staleness history w) {keys : List ℕ} {clock : ℤ}
    (hclock : w.tooOld staleness = false → w.uncachedKeys staleness keys ≠ [] →
      if keys.length = (w.uncachedKeys staleness keys).length then clock ≤ w.cacheTs
      else w.cacheTs ≤ clock) (answer : ℕ → Val) :
    let w' := PSMapChunkWorker.prepare staleness w keys answer clock
    MapChunkInv staleness (history ++ [.pull w.pullCount (w.tooOld staleness)
      (w.uncachedKeys staleness keys) answer clock (keys.zip (keys.map w'.cachedKv.get))]) w' := by
  intro w'
  have hcached : w'.cachedKv = (if w.tooOld staleness then .empty else w.cachedKv).setAll
      (w.uncachedKeys staleness keys) answer := by
    simp [w', prepare_eq]
  have hkeys : (keys.zip (keys.map w'.cachedKv.get)).map Prod.fst = keys :=
    List.map_fst_zip (by simp)
  refine ⟨h.tracks.pull _ hcached _ _ _, fun k f hf => h.entry_prepare hclock answer hf, ?_,
    throughout_snoc.mpr ⟨h.served, ?_⟩⟩
  · intro e he k hk
    rw [List.getLast?_concat, Option.mem_some_iff] at he
    subst he
    rw [MapEvent.keys, hkeys] at hk
    rw [hcached, ZeroMap.mem_setAll]
    by_cases hin : k ∈ w.uncachedKeys staleness keys
    · exact Or.inl hin
    · obtain ⟨hold, hdom⟩ := cached_of_notMem_uncachedKeys hk hin
      simp [hold, hdom]
  · intro x hx hnot
    obtain ⟨hold, hdom⟩ := cached_of_notMem_uncachedKeys (List.of_mem_zip hx).1 hnot
    obtain ⟨f, hf⟩ := Option.isSome_iff_exists.mp ((h.tracks x.1).mp hdom)
    have hage := (of_not_tooOld hold).1
    have hentry := h.entry x.1 f hf
    exact ⟨f, hf, by omega⟩

theorem MapChunkInv.push {history : List (MapEvent Val)} {w w' : PSMapWorker Val}
    (h : MapChunkInv staleness history w) {keys : List ℕ} {vals : List Val}
    {pairs : List (ℕ × Val)} (hcached : ∀ k ∈ keys, k ∈ w.cachedKv.dom)
    (hpush : w.push keys vals = some (w', pairs)) :
    MapChunkInv staleness (history ++ [.push pairs]) w' := by
  obtain ⟨hkeys, rfl⟩ := push_spec hpush
  refine ⟨h.tracks.push (by rwa [hkeys]) _, fun k f hf => ?_, fun e he k hk => ?_,
    throughout_snoc.mpr ⟨h.served, trivial⟩⟩
  · rw [lastFetch_snoc, LastFetch.note, Option.map_eq_some_iff] at hf
    obtain ⟨f, hlast, rfl⟩ := hf
    exact h.entry k f hlast
  · rw [List.getLast?_concat, Option.mem_some_iff] at he
    subst he
    exact ZeroMap.mem_incrAll.mpr (Or.inl hk)

/-- A call keeps the invariant. -/
theorem MapChunkInv.step {history : List (MapEvent Val)} {w w' : PSMapWorker Val} {op : MapOp Val}
    {out : List (MapEvent Val)} (h : MapChunkInv staleness history w) (hkeys : SameKeys history op)
    (hclock : KeepsStamp staleness w op)
    (hstep : PSMapChunkWorker.step staleness w op = some (w', out)) :
    MapChunkInv staleness (history ++ out) w' := by
  cases op with
  | pull keys answer clock =>
      simp only [PSMapChunkWorker.step, PSMapChunkWorker.pull] at hstep
      split at hstep
      · cases hstep
      · simp only [Option.bind_eq_bind, Option.bind_some, Option.some.injEq,
          Prod.mk.injEq] at hstep
        obtain ⟨rfl, rfl⟩ := hstep
        have hcount : (PSMapChunkWorker.prepare staleness w.countPull keys answer clock).pullCount =
            w.countPull.pullCount := by rw [prepare_eq]
        rw [hcount]
        exact MapChunkInv.prepare (w := w.countPull) ⟨h.tracks, h.entry, h.last, h.served⟩ hclock
          answer
  | push keys vals =>
      simp only [PSMapChunkWorker.step, Option.bind_eq_bind, Option.bind_eq_some_iff,
        Option.some.injEq, Prod.mk.injEq] at hstep
      obtain ⟨⟨w₁, pairs⟩, hpush, rfl, rfl⟩ := hstep
      refine h.push (fun k hk => ?_) hpush
      obtain ⟨e, he, rfl⟩ := Option.map_eq_some_iff.mp hkeys
      exact h.last e he k hk

/-- **The thread cache honours the staleness.**  In every run of a `PSMapChunkWorker` that pushes
the keys it has pulled, and in which no fetch leaves the stamp above the clock of an entry, every
key that a pull serves from the map was fetched with a clock at most `staleness` below the number
of the pull. -/
theorem servedWithin (staleness : ℕ) (cacheTs : ℤ) {ops : List (MapOp Val)}
    (hops : Along (PSMapChunkWorker.step staleness)
      (fun history w op => SameKeys history op ∧ KeepsStamp staleness w op) [] (.new cacheTs) ops)
    {w : PSMapWorker Val} {out : List (MapEvent Val)}
    (hrun : run (PSMapChunkWorker.step staleness) (.new cacheTs) ops = some (w, out)) :
    Throughout (ServedWithin staleness) out := by
  have hnew : MapChunkInv staleness [] (.new cacheTs : PSMapWorker Val) := by
    refine ⟨fun k => ?_, fun k f hf => ?_, fun e he => ?_, throughout_nil _⟩
    · simp [PSMapWorker.new, lastFetch]
    · cases hf
    · cases he
  exact (run_along (fun h hop hstep => h.step hop.1 hop.2 hstep) hnew hops hrun).served

end MapChunk

/-- Three pulls with staleness two: the second misses its key and is told clock 1. -/
def freshStamp : List (MapOp ℤ) :=
  [.pull [0] (fun _ => 10) 0, .push [0] [1], .pull [1] (fun _ => 20) 1, .push [1] [1],
    .pull [0] (fun _ => 30) 1]

/-- The clock of the second fetch becomes the stamp of the whole map; the third pull then serves
what the first one fetched with clock 0. -/
theorem servedWithin_fails : ∃ w out,
    run (PSMapChunkWorker.step 2) (.new 0) freshStamp = some (w, out) ∧
      Along (PSMapChunkWorker.step 2) (fun history _ op => SameKeys history op) [] (.new 0)
        freshStamp ∧
      ¬ Throughout (ServedWithin 2) out := by
  refine ⟨_, [.pull 1 true [0] (fun _ => 10) 0 [(0, 10)], .push [(0, 1)],
    .pull 2 false [1] (fun _ => 20) 1 [(1, 20)], .push [(1, 1)],
    .pull 3 false [] (fun _ => 30) 1 [(0, 11)]], rfl, ?_, fun h => ?_⟩
  · exact along_cons rfl trivial (along_cons rfl rfl (along_cons rfl trivial (along_cons rfl rfl
      (along_cons rfl trivial trivial))))
  · obtain ⟨f, hf, hage⟩ := h [_, _, _, _] _ [] rfl (0, 11) (by simp) (by simp)
    simp only [lastFetch, LastFetch.note, List.foldl_cons, List.foldl_nil] at hf
    obtain rfl := Option.some.inj hf
    exact absurd hage (by decide)

/-- The same calls when the second fetch is told clock 0. -/
def sameStamp : List (MapOp ℤ) :=
  [.pull [0] (fun _ => 10) 0, .push [0] [1], .pull [1] (fun _ => 20) 0, .push [1] [1],
    .pull [0] (fun _ => 30) 1]

theorem servedWithin_sameStamp : ∃ w out,
    run (PSMapChunkWorker.step 3) (.new 0) sameStamp = some (w, out) ∧
      .pull 3 false [] (fun _ => 30) 1 [(0, 11)] ∈ out ∧ Throughout (ServedWithin 3) out := by
  refine ⟨_, [.pull 1 true [0] (fun _ => 10) 0 [(0, 10)], .push [(0, 1)],
    .pull 2 false [1] (fun _ => 20) 0 [(1, 20)], .push [(1, 1)],
    .pull 3 false [] (fun _ => 30) 1 [(0, 11)]], rfl, by simp, ?_⟩
  have hops : Along (PSMapChunkWorker.step 3)
      (fun history w op => SameKeys history op ∧ KeepsStamp 3 w op) [] (.new 0) sameStamp := by
    refine along_cons rfl ⟨trivial, ?_⟩ (along_cons rfl ⟨rfl, trivial⟩ (along_cons rfl
      ⟨trivial, ?_⟩ (along_cons rfl ⟨rfl, trivial⟩ (along_cons rfl ⟨trivial, ?_⟩ trivial))))
    · decide
    · decide
    · decide
  exact servedWithin 3 0 hops rfl

end FlexPS.ML
