import FlexPS.Core.Task
import FlexPS.Lib.Dict

/-!
# Instances on the wire

An instance is sent as its task and the entries of its cluster map, in the order in which the map is
iterated over; the reader puts them into a new map.

## Main definitions

* `Instance`, `Instance.serialize`, `Instance.deserialize` — an instance, and how it is written and
  read.
* `Instance.Same` — two instances with the same task and the same map.
* `Instance.deserialize_serialize`, `Instance.readN_serialize` — one message, and messages one after
  the other.
-/

namespace FlexPS.Core

open Lib

/-- `Instance`; the entries of `cluster_` are listed in the order of its iteration. -/
structure Instance where
  task : Task
  cluster : Dict ℤ (List (ℤ × ℤ))

namespace Instance

variable {B : Type} (fmt : BinFormat B)

/-- The threads of a process, `{proc_id, {<tid, id>, ...}}`. -/
def writeEntry (kv : Sigma fun _ : ℤ => List (ℤ × ℤ)) : List B :=
  fmt.int.put kv.1 ++ (fmt.vector (fmt.pair fmt.int fmt.int)).put kv.2

/-- `Instance::serialize`. -/
def serialize (instance_ : Instance) : List B :=
  writeTask fmt instance_.task ++ fmt.size.put instance_.cluster.entries.length ++
    instance_.cluster.entries.flatMap (writeEntry fmt)

/-- `insert`, which keeps the entry that is there. -/
def insert (cluster : Dict ℤ (List (ℤ × ℤ))) (k : ℤ) (v : List (ℤ × ℤ)) :
    Dict ℤ (List (ℤ × ℤ)) :=
  if k ∈ cluster then cluster else cluster.set k v

/-- The loop that reads the entries. -/
def readEntries : ℕ → Dict ℤ (List (ℤ × ℤ)) → List B → Option (Dict ℤ (List (ℤ × ℤ)) × List B)
  | 0, cluster, bin => some (cluster, bin)
  | n + 1, cluster, bin => do
      let (k, bin) ← fmt.int.get bin
      let (v, bin) ← (fmt.vector (fmt.pair fmt.int fmt.int)).get bin
      readEntries n (insert cluster k v) bin

/-- `Instance::deserialize`, which begins with a map that has been cleared. -/
def deserialize (bin : List B) : Option (Instance × List B) := do
  let (task, bin) ← Core.deserialize fmt bin
  let (size, bin) ← fmt.size.get bin
  let (cluster, bin) ← readEntries fmt size ∅ bin
  some (⟨task, cluster⟩, bin)

/-- The same task, and the same map whatever the order of its entries. -/
structure Same (instance_ instance' : Instance) : Prop where
  task : instance'.task = instance_.task
  cluster : ∀ procId, instance'.cluster.lookup procId = instance_.cluster.lookup procId

/-- **The entries** are put into the map one by one. -/
theorem readEntries_flatMap {entries : List (Sigma fun _ : ℤ => List (ℤ × ℤ))}
    (hnodup : entries.NodupKeys) {cluster : Dict ℤ (List (ℤ × ℤ))}
    (hnew : ∀ kv ∈ entries, kv.1 ∉ cluster) (rest : List B) :
    ∃ cluster', readEntries fmt entries.length cluster (entries.flatMap (writeEntry fmt) ++ rest) =
        some (cluster', rest) ∧
      ∀ k, cluster'.lookup k = (entries.dlookup k).or (cluster.lookup k) := by
  induction entries generalizing cluster with
  | nil => exact ⟨cluster, rfl, fun k => rfl⟩
  | cons kv entries ih =>
      obtain ⟨k, v⟩ := kv
      obtain ⟨hfirst, hnew⟩ := List.forall_mem_cons.mp hnew
      obtain ⟨hk, hnodup⟩ := List.nodupKeys_cons.mp hnodup
      have hinsert : insert cluster k v = cluster.set k v := if_neg hfirst
      have hlater : ∀ kv ∈ entries, kv.1 ∉ cluster.set k v := by
        intro kv hkv hmem
        rcases (Dict.mem_set cluster k kv.1 v).mp hmem with heq | hold
        · rw [← heq] at hk
          exact hk (List.mem_keys_of_mem (s := kv) hkv)
        · exact hnew kv hkv hold
      obtain ⟨cluster', hread, hlookup⟩ := ih hnodup hlater
      refine ⟨cluster', ?_, fun k' => ?_⟩
      · simp [readEntries, writeEntry, List.append_assoc, hinsert, hread]
      · rw [hlookup, Dict.set]
        by_cases heq : k' = k
        · rw [heq, List.dlookup_eq_none.mpr hk, AList.lookup_insert, List.dlookup_cons_eq]
          rfl
        · rw [AList.lookup_insert_ne heq, List.dlookup_cons_ne _ _ heq]

/-- **A message** is read as the instance that was written, and nothing else is consumed; it is read
so only if the task has the type of its class. -/
theorem deserialize_serialize_iff {instance_ : Instance} {rest rest' : List B} :
    (∃ instance', deserialize fmt (instance_.serialize fmt ++ rest) = some (instance', rest') ∧
      Same instance_ instance') ↔ instance_.task.Tagged ∧ rest' = rest := by
  have hnew : ∀ kv ∈ instance_.cluster.entries, kv.1 ∉ (∅ : Dict ℤ (List (ℤ × ℤ))) :=
    fun _ _ => AList.notMem_empty _
  obtain ⟨cluster, hread, hlookup⟩ :=
    readEntries_flatMap fmt instance_.cluster.nodupKeys hnew rest
  have hforward : instance_.task.Tagged →
      deserialize fmt (instance_.serialize fmt ++ rest) = some (⟨instance_.task, cluster⟩, rest) := by
    intro htagged
    have htask (rest : List B) : Core.deserialize fmt (writeTask fmt instance_.task ++ rest) =
        some (instance_.task, rest) := (deserialize_writeTask_iff fmt).mpr ⟨htagged, rfl⟩
    simp [deserialize, serialize, List.append_assoc, htask, hread]
  constructor
  · rintro ⟨instance', h, hsame⟩
    -- the task is read first, whatever is read behind it
    obtain ⟨⟨task', bin⟩, htask, hothers⟩ := Option.bind_eq_some_iff.mp h
    obtain ⟨_, -, hentries⟩ := Option.bind_eq_some_iff.mp hothers
    obtain ⟨_, -, heq⟩ := Option.bind_eq_some_iff.mp hentries
    obtain ⟨rfl, -⟩ := Prod.mk.inj (Option.some.inj heq)
    obtain rfl : task' = instance_.task := hsame.task
    rw [serialize, List.append_assoc, List.append_assoc] at htask
    have htagged := ((deserialize_writeTask_iff fmt).mp htask).1
    rw [hforward htagged, Option.some.injEq, Prod.mk.injEq] at h
    exact ⟨htagged, h.2.symm⟩
  · rintro ⟨htagged, rfl⟩
    refine ⟨⟨instance_.task, cluster⟩, hforward htagged, rfl, fun k => ?_⟩
    rw [hlookup, AList.lookup_empty, Option.or_none]
    rfl

/-- **Messages one after the other** are read independently. -/
theorem readN_serialize_iff {instances : List Instance} {rest rest' : List B} :
    (∃ instances', readN (deserialize fmt) instances.length
        (instances.flatMap (serialize fmt) ++ rest) = some (instances', rest') ∧
      List.Forall₂ Same instances instances') ↔
      (∀ instance_ ∈ instances, instance_.task.Tagged) ∧ rest' = rest :=
  readN_flatMap_iff fun _ _ _ _ => deserialize_serialize_iff fmt

end Instance

end FlexPS.Core
