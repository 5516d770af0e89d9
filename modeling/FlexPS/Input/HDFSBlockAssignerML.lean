import FlexPS.Lib.Dict
import FlexPS.Lib.Machine
import FlexPS.Lib.Replicas
import Mathlib.Data.List.Sort

/-!
# The assigner of blocks

The master hands the blocks of a directory out to the readers of a load.  A block is recorded at each
of the hosts that have a replica; a reader is given a block of its own host while there is one, and
one of another host then.  The readers that are rejected are counted, and after the last one the
directory is forgotten, so that it can be loaded again.

## Main definitions

* `Hdfs`, `Hdfs.blocks` — the file system, and the blocks below a url.
* `HDFSBlockAssignerML` and its `answer`.
* `HDFSBlockAssignerML.HandedOnce` — what a load is to do.
* `HDFSBlockAssignerML.hands_out_once` — it does, in every interleaving of the requests.
-/

namespace FlexPS.Input

open Lib

/-- `hdfsFileInfo`. -/
structure HdfsFileInfo where
  isFile : Bool
  name : String
  size : ℕ
  blockSize : ℕ
  blockSize_pos : 0 < blockSize

/-- What the file system tells: the entries of a directory, and the hosts that have a replica of the
block of a file at an offset. -/
structure Hdfs where
  listDirectory : String → List HdfsFileInfo
  blockHosts : String → ℕ → List String

/-- `BlkDesc`, without the host under which it is kept. -/
structure BlkDesc where
  filename : String
  offset : ℕ
  deriving DecidableEq

/-- The offsets of the blocks of a file. -/
def HdfsFileInfo.offsets (f : HdfsFileInfo) : List ℕ :=
  (List.range ((f.size + (f.blockSize - 1)) / f.blockSize)).map fun i => i * f.blockSize

/-- The blocks of the files in a directory, with the hosts of each. -/
def Hdfs.blocks (fs : Hdfs) (url : String) : List (BlkDesc × List String) :=
  ((fs.listDirectory url).filter HdfsFileInfo.isFile).flatMap fun f =>
    f.offsets.map fun k => (⟨f.name ++ "\x00", k⟩, fs.blockHosts f.name k)

/-- A replica of the block is at the host. -/
def Hdfs.Located (fs : Hdfs) (url host : String) (blk : BlkDesc) : Prop :=
  ∃ hosts, (blk, hosts) ∈ fs.blocks url ∧ host ∈ hosts

def kLoadHdfsLocally : String := "load_hdfs_locally"

def kLoadHdfsGlobally : String := "load_hdfs_globally"

/-- The blocks that are left, for every host. -/
abbrev FilesLocality := Dict String (List BlkDesc)

/-- `HDFSBlockAssignerML`. -/
structure HDFSBlockAssignerML where
  fs : Option Hdfs
  numWorkersAlive : ℕ
  filesLocalityMultiDict : Dict ℕ (Dict String FilesLocality)
  finishMultiDict : Dict ℕ (Dict String (Dict String ℕ × ℕ))

/-- A request, as the master receives it. -/
structure BlockRequest where
  url : String
  host : String
  numThreads : ℕ
  id : ℕ
  loadType : String

/-- The next request, who sends it, and which element of an unordered set is its first one. -/
structure BlockInput where
  reader : ℕ
  request : BlockRequest
  first : ℕ

/-- A request that has been answered. -/
structure BlockReply where
  reader : ℕ
  request : BlockRequest
  reply : String × ℕ

namespace HDFSBlockAssignerML

/-- `files_locality_multi_dict[id][url]`, when it is there. -/
def entry (s : HDFSBlockAssignerML) (id : ℕ) (url : String) : Option FilesLocality :=
  (s.filesLocalityMultiDict.getD id ∅).lookup url

/-- `files_locality_multi_dict[id][url]`. -/
def filesLocality (s : HDFSBlockAssignerML) (id : ℕ) (url : String) : FilesLocality :=
  (s.filesLocalityMultiDict.getD id ∅).getD url ∅

def setFilesLocality (s : HDFSBlockAssignerML) (id : ℕ) (url : String) (all : FilesLocality) :
    HDFSBlockAssignerML :=
  let urls := (s.filesLocalityMultiDict.getD id ∅).set url all
  { s with filesLocalityMultiDict := s.filesLocalityMultiDict.set id urls }

/-- `files_locality_multi_dict[id].erase(url)`. -/
def eraseUrl (s : HDFSBlockAssignerML) (id : ℕ) (url : String) : HDFSBlockAssignerML :=
  let urls := (s.filesLocalityMultiDict.getD id ∅).drop url
  { s with filesLocalityMultiDict := s.filesLocalityMultiDict.set id urls }

/-- `finish_multi_dict[id][url]`. -/
def finish (s : HDFSBlockAssignerML) (id : ℕ) (url : String) : Dict String ℕ × ℕ :=
  (s.finishMultiDict.getD id ∅).getD url (∅, 0)

def setFinish (s : HDFSBlockAssignerML) (id : ℕ) (url : String) (count : Dict String ℕ × ℕ) :
    HDFSBlockAssignerML :=
  let urls := (s.finishMultiDict.getD id ∅).set url count
  { s with finishMultiDict := s.finishMultiDict.set id urls }

/-- Record a replica of a block. -/
def record (blk : BlkDesc) (d : FilesLocality × Dict String ℕ) (host : String) :
    FilesLocality × Dict String ℕ :=
  (d.1.set host (List.insert blk (d.1.getD host [])), d.2.set host 0)

/-- `browse_hdfs`. -/
def browseHdfs (s : HDFSBlockAssignerML) (id : ℕ) (url : String) : HDFSBlockAssignerML :=
  match s.fs with
  | none => s
  | some fs =>
      let count := s.finish id url
      let recorded := (fs.blocks url).foldl (fun d blk => blk.2.foldl (record blk.1) d)
        (s.filesLocality id url, count.1)
      (s.setFilesLocality id url recorded.1).setFinish id url (recorded.2, count.2)

/-- `browse_hdfs`, and count the url accessing times. -/
def startLoad (s : HDFSBlockAssignerML) (id : ℕ) (url : String) : HDFSBlockAssignerML :=
  let s := s.browseHdfs id url
  s.setFinish id url ((s.finish id url).1, 0)

/-- Find the id, and then the url. -/
def find (s : HDFSBlockAssignerML) (id : ℕ) (url : String) : HDFSBlockAssignerML :=
  let s := if id ∈ s.filesLocalityMultiDict then s else s.startLoad id url
  if url ∈ s.filesLocalityMultiDict.getD id ∅ then s else s.startLoad id url

/-- The own host, or the first host that is not finished. -/
def selectHost (all : FilesLocality) (host : String) : Option String :=
  if all.getD host [] ≠ [] then some host
  else (all.keys.insertionSort (· ≤ ·)).find? fun h => all.getD h [] ≠ []

/-- Select a block of the host and remove all replicas in different hosts. -/
def handOut (s : HDFSBlockAssignerML) (id : ℕ) (url : String) (all : FilesLocality)
    (selectedHost : String) (first : ℕ) : Option (HDFSBlockAssignerML × (String × ℕ)) := do
  let blks := all.getD selectedHost []
  let blk ← blks[first % blks.length]?
  some (s.setFilesLocality id url (all.mapValues fun blks => blks.erase blk),
    (blk.filename, blk.offset))

/-- All hosts are finished. -/
def rejectGlobally (s : HDFSBlockAssignerML) (id : ℕ) (url : String) (all : FilesLocality) :
    HDFSBlockAssignerML :=
  let count := s.finish id url
  let s := (s.setFilesLocality id url all).setFinish id url (count.1, count.2 + 1)
  if count.2 + 1 = s.numWorkersAlive then s.eraseUrl id url else s

/-- The host is finished. -/
def rejectLocally (s : HDFSBlockAssignerML) (id : ℕ) (url : String) (all : FilesLocality)
    (host : String) : HDFSBlockAssignerML :=
  let count := s.finish id url
  let rejected := count.1.getD host 0 + 1
  let s := s.setFinish id url (count.1.set host rejected, count.2)
  s.setFilesLocality id url (if rejected = s.numWorkersAlive then all.drop host else all)

/-- `answer`; `none` for an exception. -/
def answer (s : HDFSBlockAssignerML) (host url : String) (id : ℕ) (loadType : String) (first : ℕ) :
    Option (HDFSBlockAssignerML × (String × ℕ)) :=
  if s.fs.isNone then some (s, ("", 0))
  else
    let s := s.find id url
    let all := s.filesLocality id url
    let all := all.set host (all.getD host [])
    if loadType = "" ∨ loadType = kLoadHdfsGlobally then
      match selectHost all host with
      | some selectedHost => s.handOut id url all selectedHost first
      | none => some (s.rejectGlobally id url all, ("", 0))
    else if loadType = kLoadHdfsLocally then
      if all.getD host [] = [] then some (s.rejectLocally id url all host, ("", 0))
      else s.handOut id url all host first
    else none

/-- `master_main_handler_ml`. -/
def step (s : HDFSBlockAssignerML) (i : BlockInput) :
    Option (HDFSBlockAssignerML × List BlockReply) :=
  let r := i.request
  (answer { s with numWorkersAlive := r.numThreads } r.host r.url r.id r.loadType i.first).map
    fun p => (p.1, [⟨i.reader, r, p.2⟩])

/-! ## What a load is to do -/

/-- The replies of a load that name a block. -/
def handed (id : ℕ) (url : String) (out : List BlockReply) : List BlkDesc :=
  out.filterMap fun e =>
    if e.request.id = id ∧ e.request.url = url ∧ e.reply.1 ≠ "" then some ⟨e.reply.1, e.reply.2⟩
    else none

/-- The readers of a load that have got an empty answer. -/
def rejected (id : ℕ) (url : String) (out : List BlockReply) : List ℕ :=
  out.filterMap fun e =>
    if e.request.id = id ∧ e.request.url = url ∧ e.reply.1 = "" then some e.reader else none

/-- The requests of a load come from its readers, which stop at their first empty answer; other
loads may do as they please. -/
def Fair (id : ℕ) (url : String) (n : ℕ) (hosts : ℕ → String) (before : List BlockReply)
    (i : BlockInput) : Prop :=
  i.request.id = id → i.request.url = url →
    i.reader < n ∧ i.request.host = hosts i.reader ∧ i.request.numThreads = n ∧
      (i.request.loadType = "" ∨ i.request.loadType = kLoadHdfsGlobally) ∧
      i.reader ∉ rejected id url before

/-- **Every block is handed out once**: never twice, always before a reader is rejected, and when all
readers have been rejected there is no entry for the url, so that it can be loaded again. -/
structure HandedOnce (fs : Hdfs) (id : ℕ) (url : String) (n : ℕ) (out : List BlockReply)
    (s : HDFSBlockAssignerML) : Prop where
  once : (handed id url out).Nodup
  blocks : ∀ blk ∈ handed id url out, blk ∈ (fs.blocks url).map Prod.fst
  reject : Throughout (fun before e => e.request.id = id → e.request.url = url → e.reply.1 = "" →
    ∀ blk ∈ (fs.blocks url).map Prod.fst, blk ∈ handed id url before) out
  finished : (∀ r < n, r ∈ rejected id url out) →
    (∀ blk ∈ (fs.blocks url).map Prod.fst, blk ∈ handed id url out) ∧ s.fs = some fs ∧
      s.entry id url = none
  answered : ∀ i : BlockInput, i.request.loadType = "" ∨ i.request.loadType = kLoadHdfsGlobally →
    (s.step i).isSome

/-! ## Reading and writing the entries -/

variable {s s' : HDFSBlockAssignerML} {fs : Hdfs} {id id' n : ℕ} {url url' host loadType : String}
  {all : FilesLocality} {gone : List BlkDesc} {out o : List BlockReply}

theorem entry_setFilesLocality (s : HDFSBlockAssignerML) (all : FilesLocality) :
    (s.setFilesLocality id url all).entry id url = some all := by
  simp only [entry, setFilesLocality, Dict.getD_set_self]
  exact AList.lookup_insert _

theorem finish_setFinish (s : HDFSBlockAssignerML) (count : Dict String ℕ × ℕ) :
    (s.setFinish id url count).finish id url = count := by
  simp only [finish, setFinish, Dict.getD_set_self]

theorem entry_eraseUrl (s : HDFSBlockAssignerML) : (s.eraseUrl id url).entry id url = none := by
  simp only [entry, eraseUrl, Dict.getD_set_self]
  exact AList.lookup_erase _ _

theorem mem_urls_iff : url ∈ s.filesLocalityMultiDict.getD id ∅ ↔ s.entry id url ≠ none := by
  rw [entry, ← AList.lookup_isSome, Option.isSome_iff_ne_none]

/-- What is known of another load does not change. -/
structure Keeps (id : ℕ) (url : String) (s s' : HDFSBlockAssignerML) : Prop where
  fs : s'.fs = s.fs
  entry : s'.entry id url = s.entry id url
  finish : s'.finish id url = s.finish id url

theorem Keeps.refl (s : HDFSBlockAssignerML) : Keeps id url s s := ⟨rfl, rfl, rfl⟩

theorem Keeps.trans {s'' : HDFSBlockAssignerML} (h : Keeps id url s s') (h' : Keeps id url s' s'') :
    Keeps id url s s'' :=
  ⟨h'.fs.trans h.fs, h'.entry.trans h.entry, h'.finish.trans h.finish⟩

section Keeps

variable (hne : ¬ (id' = id ∧ url' = url))

include hne

theorem keeps_setFilesLocality (s : HDFSBlockAssignerML) (all : FilesLocality) :
    Keeps id url s (s.setFilesLocality id' url' all) := by
  refine ⟨rfl, ?_, rfl⟩
  by_cases hid : id = id'
  · subst hid
    simp only [entry, setFilesLocality, Dict.getD_set_self]
    exact AList.lookup_insert_ne fun hurl => hne ⟨rfl, hurl.symm⟩
  · simp only [entry, setFilesLocality, Dict.getD_set_of_ne _ hid]

theorem keeps_eraseUrl (s : HDFSBlockAssignerML) : Keeps id url s (s.eraseUrl id' url') := by
  refine ⟨rfl, ?_, rfl⟩
  by_cases hid : id = id'
  · subst hid
    simp only [entry, eraseUrl, Dict.getD_set_self]
    exact AList.lookup_erase_ne fun hurl => hne ⟨rfl, hurl.symm⟩
  · simp only [entry, eraseUrl, Dict.getD_set_of_ne _ hid]

theorem keeps_setFinish (s : HDFSBlockAssignerML) (count : Dict String ℕ × ℕ) :
    Keeps id url s (s.setFinish id' url' count) := by
  refine ⟨rfl, rfl, ?_⟩
  by_cases hid : id = id'
  · subst hid
    simp only [finish, setFinish, Dict.getD_set_self]
    exact Dict.getD_set_of_ne _ (fun hurl => hne ⟨rfl, hurl.symm⟩) _ _
  · simp only [finish, setFinish, Dict.getD_set_of_ne _ hid]

theorem keeps_startLoad (s : HDFSBlockAssignerML) : Keeps id url s (s.startLoad id' url') := by
  refine Keeps.trans ?_ (keeps_setFinish hne _ _)
  unfold browseHdfs
  split
  · exact Keeps.refl s
  · exact (keeps_setFilesLocality hne s _).trans (keeps_setFinish hne _ _)

theorem keeps_find (s : HDFSBlockAssignerML) : Keeps id url s (s.find id' url') := by
  have hfirst : Keeps id url s
      (if id' ∈ s.filesLocalityMultiDict then s else s.startLoad id' url') := by
    split
    · exact Keeps.refl s
    · exact keeps_startLoad hne s
  unfold find
  generalize (if id' ∈ s.filesLocalityMultiDict then s else s.startLoad id' url') = s₁ at hfirst ⊢
  simp only
  split
  · exact hfirst
  · exact hfirst.trans (keeps_startLoad hne _)

theorem keeps_handOut {r : HDFSBlockAssignerML × (String × ℕ)} {first : ℕ}
    (h : s.handOut id' url' all host first = some r) : Keeps id url s r.1 := by
  obtain ⟨blk, -, h⟩ := Option.bind_eq_some_iff.mp h
  obtain rfl := Option.some.inj h
  exact keeps_setFilesLocality hne s _

theorem keeps_rejectGlobally (s : HDFSBlockAssignerML) (all : FilesLocality) :
    Keeps id url s (s.rejectGlobally id' url' all) := by
  have hcount := (keeps_setFilesLocality hne s all).trans (keeps_setFinish hne _
    ((s.finish id' url').1, (s.finish id' url').2 + 1))
  unfold rejectGlobally
  simp only
  split
  · exact hcount.trans (keeps_eraseUrl hne _)
  · exact hcount

theorem keeps_rejectLocally (s : HDFSBlockAssignerML) (all : FilesLocality) (host : String) :
    Keeps id url s (s.rejectLocally id' url' all host) :=
  (keeps_setFinish hne s _).trans (keeps_setFilesLocality hne _ _)

/-- **A request of another load.** -/
theorem keeps_answer {r : HDFSBlockAssignerML × (String × ℕ)} {first : ℕ}
    (h : s.answer host url' id' loadType first = some r) : Keeps id url s r.1 := by
  unfold answer at h
  split at h
  · obtain rfl := Option.some.inj h
    exact Keeps.refl s
  · have hfind := keeps_find hne s
    simp only at h
    split at h
    · split at h
      · exact hfind.trans (keeps_handOut hne h)
      · obtain rfl := Option.some.inj h
        exact hfind.trans (keeps_rejectGlobally hne _ _)
    · split at h
      · split at h
        · obtain rfl := Option.some.inj h
          exact hfind.trans (keeps_rejectLocally hne _ _ _)
        · exact hfind.trans (keeps_handOut hne h)
      · cases h

end Keeps

/-! ## Starting a load -/

/-- Recording a block adds it to its hosts. -/
theorem foldl_record (blk : BlkDesc) (hosts : List String) (d : FilesLocality × Dict String ℕ)
    (host : String) (x : BlkDesc) :
    x ∈ (hosts.foldl (record blk) d).1.getD host [] ↔
      x ∈ d.1.getD host [] ∨ (x = blk ∧ host ∈ hosts) := by
  induction hosts generalizing d with
  | nil => simp
  | cons h hosts ih =>
      rw [List.foldl_cons, ih, record]
      by_cases hhost : host = h
      · subst hhost
        rw [Dict.getD_set_self, List.mem_insert_iff]
        simp only [List.mem_cons, true_or, and_true]
        tauto
      · rw [Dict.getD_set_of_ne _ hhost]
        simp only [List.mem_cons, hhost, false_or]

theorem nodup_foldl_record (blk : BlkDesc) (hosts : List String)
    {d : FilesLocality × Dict String ℕ} (hd : ∀ host, (d.1.getD host []).Nodup) (host : String) :
    ((hosts.foldl (record blk) d).1.getD host []).Nodup := by
  induction hosts generalizing d with
  | nil => exact hd host
  | cons h hosts ih =>
      refine ih fun host' => ?_
      rw [record]
      by_cases hhost : host' = h
      · subst hhost
        rw [Dict.getD_set_self]
        exact (hd host').insert
      · rw [Dict.getD_set_of_ne _ hhost]
        exact hd host'

theorem foldl_record_blocks (blks : List (BlkDesc × List String))
    {d : FilesLocality × Dict String ℕ} (hd : ∀ host, (d.1.getD host []).Nodup) (host : String) :
    ((blks.foldl (fun d blk => blk.2.foldl (record blk.1) d) d).1.getD host []).Nodup ∧
      ∀ x, x ∈ (blks.foldl (fun d blk => blk.2.foldl (record blk.1) d) d).1.getD host [] ↔
        x ∈ d.1.getD host [] ∨ ∃ hosts, (x, hosts) ∈ blks ∧ host ∈ hosts := by
  induction blks generalizing d with
  | nil => exact ⟨hd host, fun x => by simp⟩
  | cons blk blks ih =>
      obtain ⟨hnodup, hmem⟩ := ih (nodup_foldl_record blk.1 blk.2 hd)
      refine ⟨hnodup, fun x => ?_⟩
      rw [List.foldl_cons, hmem, foldl_record]
      constructor
      · rintro ((hx | ⟨rfl, hhost⟩) | ⟨hosts, hx, hhost⟩)
        · exact .inl hx
        · exact .inr ⟨blk.2, List.mem_cons_self .., hhost⟩
        · exact .inr ⟨hosts, List.mem_cons_of_mem _ hx, hhost⟩
      · rintro (hx | ⟨hosts, hx, hhost⟩)
        · exact .inl (.inl hx)
        · rcases List.mem_cons.mp hx with rfl | hx
          · exact .inl (.inr ⟨rfl, hhost⟩)
          · exact .inr ⟨hosts, hx, hhost⟩

/-- **Recording the blocks** puts each at its hosts. -/
theorem replicas_record (fs : Hdfs) (url : String) (count : Dict String ℕ) :
    Replicas (fs.Located url) [] fun host => ((fs.blocks url).foldl
      (fun d blk => blk.2.foldl (record blk.1) d) ((∅ : FilesLocality), count)).1.getD host [] := by
  have hspec := @foldl_record_blocks (fs.blocks url) (∅, count) fun _ => List.nodup_nil
  refine ⟨fun host x => ?_, fun host => (hspec host).1⟩
  rw [(hspec host).2]
  simp [Hdfs.Located]

/-- A url that has no entry is browsed. -/
theorem startLoad_spec (hfs : s.fs = some fs) (hentry : s.entry id url = none) :
    (s.startLoad id url).fs = some fs ∧ ((s.startLoad id url).finish id url).2 = 0 ∧
      ∃ all, (s.startLoad id url).entry id url = some all ∧
        Replicas (fs.Located url) [] fun host => all.getD host [] := by
  have hempty : s.filesLocality id url = ∅ := by
    rw [filesLocality, Dict.getD]
    rw [entry] at hentry
    rw [hentry]
    rfl
  unfold startLoad browseHdfs
  rw [hfs]
  simp only [hempty]
  refine ⟨hfs, ?_, _, entry_setFilesLocality s _, replicas_record fs url _⟩
  rw [finish_setFinish]

/-- Starting a load changes the entries only. -/
theorem startLoad_static (s : HDFSBlockAssignerML) (id : ℕ) (url : String) :
    (s.startLoad id url).fs = s.fs ∧ (s.startLoad id url).numWorkersAlive = s.numWorkersAlive := by
  unfold startLoad browseHdfs
  split
  · exact ⟨rfl, rfl⟩
  · exact ⟨rfl, rfl⟩

theorem find_static (s : HDFSBlockAssignerML) (id : ℕ) (url : String) :
    (s.find id url).fs = s.fs ∧ (s.find id url).numWorkersAlive = s.numWorkersAlive := by
  have hfirst : (if id ∈ s.filesLocalityMultiDict then s else s.startLoad id url).fs = s.fs ∧
      (if id ∈ s.filesLocalityMultiDict then s else s.startLoad id url).numWorkersAlive =
        s.numWorkersAlive := by
    split
    · exact ⟨rfl, rfl⟩
    · exact startLoad_static s id url
  unfold find
  generalize (if id ∈ s.filesLocalityMultiDict then s else s.startLoad id url) = s₁ at hfirst ⊢
  simp only
  split
  · exact hfirst
  · obtain ⟨hfs, hnum⟩ := startLoad_static s₁ id url
    exact ⟨hfs.trans hfirst.1, hnum.trans hfirst.2⟩

theorem find_eq_startLoad (hfs : s.fs = some fs) (hentry : s.entry id url = none) :
    s.find id url = s.startLoad id url := by
  obtain ⟨-, -, all, hall, -⟩ := startLoad_spec hfs hentry
  unfold find
  by_cases hid : id ∈ s.filesLocalityMultiDict
  · rw [if_pos hid]
    exact if_neg fun hurl => mem_urls_iff.mp hurl hentry
  · rw [if_neg hid]
    refine if_pos (mem_urls_iff.mpr ?_)
    rw [hall]
    nofun

theorem find_eq_self (hentry : s.entry id url = some all) : s.find id url = s := by
  have hurl : url ∈ s.filesLocalityMultiDict.getD id ∅ := by
    rw [mem_urls_iff, hentry]
    nofun
  have hid : id ∈ s.filesLocalityMultiDict := by
    by_contra hid
    rw [Dict.getD_of_not_mem hid] at hurl
    exact AList.notMem_empty _ hurl
  unfold find
  rw [if_pos hid]
  exact if_pos hurl

/-! ## Answering a reader of the load -/

theorem selectHost_some {selectedHost : String} (h : selectHost all host = some selectedHost) :
    all.getD selectedHost [] ≠ [] := by
  unfold selectHost at h
  split at h
  · next hlocal =>
      obtain rfl := Option.some.inj h
      exact hlocal
  · exact of_decide_eq_true (List.find?_eq_some_iff_append.mp h).1

theorem selectHost_none (h : selectHost all host = none) (host' : String) :
    all.getD host' [] = [] := by
  unfold selectHost at h
  split at h
  · cases h
  · by_cases hmem : host' ∈ all
    · have hnone := List.find?_eq_none.mp h host' (List.mem_insertionSort _ |>.mpr hmem)
      simpa using hnone
    · exact Dict.getD_of_not_mem hmem _

/-- A host that has something left hands it out. -/
theorem handOut_spec {r : HDFSBlockAssignerML × (String × ℕ)} {first : ℕ} {located : String →
    BlkDesc → Prop} (hall : Replicas located gone fun host => all.getD host [])
    (h : s.handOut id url all host first = some r) :
    ∃ blk all', blk ∉ gone ∧ located host blk ∧ r.2 = (blk.filename, blk.offset) ∧
      r.1 = s.setFilesLocality id url all' ∧
      Replicas located (gone ++ [blk]) fun host => all'.getD host [] := by
  obtain ⟨blk, hblk, h⟩ := Option.bind_eq_some_iff.mp h
  obtain rfl := Option.some.inj h
  obtain ⟨hlocated, hfresh⟩ := hall.fresh (List.mem_of_getElem? hblk)
  refine ⟨blk, _, hfresh, hlocated, rfl, rfl, hall.take fun host => ?_⟩
  exact Dict.getD_mapValues (fun blks : List BlkDesc => blks.erase blk) all host []

theorem handOut_isSome (hne : all.getD host [] ≠ []) (first : ℕ) :
    (s.handOut id url all host first).isSome := by
  have hlt : first % (all.getD host []).length < (all.getD host []).length :=
    Nat.mod_lt _ (List.length_pos_iff.mpr hne)
  unfold handOut
  simp only [List.getElem?_eq_getElem hlt, Option.bind_eq_bind, Option.bind_some, Option.isSome_some]

/-- A global request is always answered. -/
theorem isSome_step (s : HDFSBlockAssignerML) (i : BlockInput)
    (htype : i.request.loadType = "" ∨ i.request.loadType = kLoadHdfsGlobally) :
    (s.step i).isSome := by
  unfold step
  rw [Option.isSome_map]
  unfold answer
  split
  · rfl
  · simp only
    split
    · next hselected => exact handOut_isSome (selectHost_some hselected) i.first
    · rfl

/-- **Answering a reader of the load**: it gets a block that has not been handed out, or nothing is
left. -/
theorem answer_cases {located : String → BlkDesc → Prop} {r : HDFSBlockAssignerML × (String × ℕ)}
    {first : ℕ} (hfs : s.fs = some fs) (htype : loadType = "" ∨ loadType = kLoadHdfsGlobally)
    (hentry : (s.find id url).entry id url = some all)
    (hall : Replicas located gone fun host => all.getD host [])
    (h : s.answer host url id loadType first = some r) :
    (∃ host' blk all', blk ∉ gone ∧ located host' blk ∧ r.2 = (blk.filename, blk.offset) ∧
      r.1 = (s.find id url).setFilesLocality id url all' ∧
      Replicas located (gone ++ [blk]) fun host => all'.getD host []) ∨
    (∃ all', r = ((s.find id url).rejectGlobally id url all', ("", 0)) ∧
      (∀ host, all.getD host [] = []) ∧ Replicas located gone fun host => all'.getD host []) := by
  have hget : ∀ host', (all.set host (all.getD host [])).getD host' [] = all.getD host' [] := by
    intro host'
    by_cases hhost : host' = host
    · subst hhost
      rw [Dict.getD_set_self]
    · rw [Dict.getD_set_of_ne _ hhost]
  have hlocality : (s.find id url).filesLocality id url = all := by
    rw [filesLocality, Dict.getD]
    rw [entry] at hentry
    rw [hentry]
    rfl
  have hset : Replicas located gone fun host' =>
      (all.set host (all.getD host [])).getD host' [] := by
    simpa only [hget] using hall
  unfold answer at h
  rw [hfs] at h
  simp only [Option.isNone_some, Bool.false_eq_true, if_false, hlocality, if_pos htype] at h
  split at h
  · next selectedHost hselected =>
      obtain ⟨blk, all', hfresh, hlocated, hreply, hs, hall'⟩ := handOut_spec hset h
      exact .inl ⟨_, blk, all', hfresh, hlocated, hreply, hs, hall'⟩
  · next hnone =>
      obtain rfl := Option.some.inj h
      refine .inr ⟨_, rfl, fun host' => ?_, hset⟩
      rw [← hget]
      exact selectHost_none hnone host'

/-! ## The invariant of a load -/

theorem handed_snoc (out : List BlockReply) (e : BlockReply) :
    handed id url (out ++ [e]) =
      if e.request.id = id ∧ e.request.url = url ∧ e.reply.1 ≠ "" then
        handed id url out ++ [⟨e.reply.1, e.reply.2⟩]
      else handed id url out := by
  rw [handed, List.filterMap_append]
  split
  · next h => simp [handed, h]
  · next h => simp [handed, h]

theorem rejected_snoc (out : List BlockReply) (e : BlockReply) :
    rejected id url (out ++ [e]) =
      if e.request.id = id ∧ e.request.url = url ∧ e.reply.1 = "" then
        rejected id url out ++ [e.reader]
      else rejected id url out := by
  rw [rejected, List.filterMap_append]
  split
  · next h => simp [rejected, h]
  · next h => simp [rejected, h]

/-- The name of a block is not empty. -/
theorem Located.filename_ne {blk : BlkDesc} (h : fs.Located url host blk) : blk.filename ≠ "" := by
  obtain ⟨hosts, hblk, -⟩ := h
  obtain ⟨f, -, hblk⟩ := List.mem_flatMap.mp hblk
  obtain ⟨k, -, heq⟩ := List.mem_map.mp hblk
  obtain ⟨rfl, -⟩ := Prod.mk.inj heq
  intro hempty
  have hlength := congrArg String.length hempty
  rw [String.length_append] at hlength
  exact absurd hlength (Nat.succ_ne_zero _)

/-- The load has not begun, or it is over, or the entry of the url has what is left and the number of
the readers that have been rejected. -/
def Account (fs : Hdfs) (id : ℕ) (url : String) (n : ℕ) (out : List BlockReply)
    (s : HDFSBlockAssignerML) : Prop :=
  match s.entry id url with
  | none => (handed id url out = [] ∧ rejected id url out = []) ∨
      ((rejected id url out).length = n ∧
        ∀ host blk, fs.Located url host blk → blk ∈ handed id url out)
  | some all => Replicas (fs.Located url) (handed id url out) (fun host => all.getD host []) ∧
      (s.finish id url).2 = (rejected id url out).length ∧ (rejected id url out).length < n

/-- The invariant of a load. -/
structure Inv (fs : Hdfs) (id : ℕ) (url : String) (n : ℕ) (out : List BlockReply)
    (s : HDFSBlockAssignerML) : Prop where
  system : s.fs = some fs
  once : (handed id url out).Nodup
  blocks : ∀ blk ∈ handed id url out, ∃ host, fs.Located url host blk
  readers : (rejected id url out).Nodup ∧ ∀ r ∈ rejected id url out, r < n
  reject : Throughout (fun before e => e.request.id = id → e.request.url = url → e.reply.1 = "" →
    ∀ host blk, fs.Located url host blk → blk ∈ handed id url before) out
  account : Account fs id url n out s

/-- Another load. -/
theorem Inv.other (h : Inv fs id url n out s) (hkeeps : Keeps id url s s') {e : BlockReply}
    (hne : ¬ (e.request.id = id ∧ e.request.url = url)) : Inv fs id url n (out ++ [e]) s' := by
  have hhanded : handed id url (out ++ [e]) = handed id url out := by
    rw [handed_snoc, if_neg fun hreply => hne ⟨hreply.1, hreply.2.1⟩]
  have hrejected : rejected id url (out ++ [e]) = rejected id url out := by
    rw [rejected_snoc, if_neg fun hreply => hne ⟨hreply.1, hreply.2.1⟩]
  refine ⟨hkeeps.fs.trans h.system, ?_, ?_, ?_, ?_, ?_⟩
  · rw [hhanded]
    exact h.once
  · rw [hhanded]
    exact h.blocks
  · rw [hrejected]
    exact h.readers
  · exact throughout_snoc.mpr ⟨h.reject, fun hid hurl => absurd ⟨hid, hurl⟩ hne⟩
  · have haccount := h.account
    unfold Account at haccount ⊢
    rwa [hkeeps.entry, hkeeps.finish, hhanded, hrejected]

/-- A reader that has not been rejected finds the load. -/
theorem Inv.find (h : Inv fs id url n out s) {reader : ℕ} (hreader : reader < n)
    (hnot : reader ∉ rejected id url out) (numThreads : ℕ) :
    (rejected id url out).length < n ∧
    ∃ all, (HDFSBlockAssignerML.find { s with numWorkersAlive := numThreads } id url).entry id url =
        some all ∧
      Replicas (fs.Located url) (handed id url out) (fun host => all.getD host []) ∧
      ((HDFSBlockAssignerML.find { s with numWorkersAlive := numThreads } id url).finish id url).2 =
        (rejected id url out).length := by
  have hlt : (rejected id url out).length < n := by
    have hnodup : (reader :: rejected id url out).Nodup := List.nodup_cons.mpr ⟨hnot, h.readers.1⟩
    have hsubset : reader :: rejected id url out ⊆ List.range n := by
      intro r hr
      rcases List.mem_cons.mp hr with rfl | hr
      · exact List.mem_range.mpr hreader
      · exact List.mem_range.mpr (h.readers.2 r hr)
    have hlength := (List.subperm_of_subset hnodup hsubset).length_le
    rw [List.length_cons, List.length_range] at hlength
    exact hlength
  refine ⟨hlt, ?_⟩
  have haccount := h.account
  unfold Account at haccount
  cases hentry : s.entry id url with
  | none =>
      rw [hentry] at haccount
      rcases haccount with ⟨hhanded, hrejected⟩ | ⟨hall, -⟩
      · have hstart := find_eq_startLoad (s := { s with numWorkersAlive := numThreads }) h.system hentry
        obtain ⟨-, hcount, all, hall, hreplicas⟩ := startLoad_spec
          (s := { s with numWorkersAlive := numThreads }) h.system hentry
        rw [hstart, hhanded, hrejected]
        exact ⟨all, hall, hreplicas, hcount⟩
      · exact absurd hall hlt.ne
  | some all =>
      rw [hentry] at haccount
      have hself := find_eq_self (s := { s with numWorkersAlive := numThreads }) hentry
      rw [hself]
      exact ⟨all, hentry, haccount.1, haccount.2.1⟩

/-- A block is handed out. -/
theorem Inv.give (h : Inv fs id url n out s) {e : BlockReply} {blk : BlkDesc}
    (he : e.request.id = id ∧ e.request.url = url) (hreply : e.reply = (blk.filename, blk.offset))
    (hfresh : blk ∉ handed id url out) (hlocated : fs.Located url host blk)
    (hfs : s'.fs = some fs) (hentry : s'.entry id url = some all)
    (hall : Replicas (fs.Located url) (handed id url out ++ [blk]) fun host => all.getD host [])
    (hcount : (s'.finish id url).2 = (rejected id url out).length)
    (hlt : (rejected id url out).length < n) : Inv fs id url n (out ++ [e]) s' := by
  have hname : e.reply.1 ≠ "" := by
    rw [hreply]
    exact Located.filename_ne hlocated
  have hhanded : handed id url (out ++ [e]) = handed id url out ++ [blk] := by
    rw [handed_snoc, if_pos ⟨he.1, he.2, hname⟩, hreply]
  have hrejected : rejected id url (out ++ [e]) = rejected id url out := by
    rw [rejected_snoc, if_neg fun hempty => hname hempty.2.2]
  refine ⟨hfs, ?_, ?_, ?_, throughout_snoc.mpr ⟨h.reject, fun _ _ hempty => absurd hempty hname⟩, ?_⟩
  · rw [hhanded]
    exact nodup_snoc h.once hfresh
  · rw [hhanded]
    intro x hx
    rcases List.mem_append.mp hx with hx | hx
    · exact h.blocks x hx
    · obtain rfl := List.mem_singleton.mp hx
      exact ⟨host, hlocated⟩
  · rw [hrejected]
    exact h.readers
  · unfold Account
    rw [hentry, hhanded, hrejected]
    exact ⟨hall, hcount, hlt⟩

/-- A reader is rejected, when nothing is left. -/
theorem Inv.refuse (h : Inv fs id url n out s) {e : BlockReply}
    (he : e.request.id = id ∧ e.request.url = url) (hname : e.reply.1 = "") (hreader : e.reader < n)
    (hnot : e.reader ∉ rejected id url out)
    (hleft : ∀ host blk, fs.Located url host blk → blk ∈ handed id url out)
    (hfs : s'.fs = some fs)
    (haccount : match s'.entry id url with
      | none => (rejected id url out).length + 1 = n
      | some all => Replicas (fs.Located url) (handed id url out) (fun host => all.getD host []) ∧
          (s'.finish id url).2 = (rejected id url out).length + 1 ∧
          (rejected id url out).length + 1 < n) :
    Inv fs id url n (out ++ [e]) s' := by
  have hhanded : handed id url (out ++ [e]) = handed id url out := by
    rw [handed_snoc, if_neg fun hne => hne.2.2 hname]
  have hrejected : rejected id url (out ++ [e]) = rejected id url out ++ [e.reader] := by
    rw [rejected_snoc, if_pos ⟨he.1, he.2, hname⟩]
  refine ⟨hfs, ?_, ?_, ?_, throughout_snoc.mpr ⟨h.reject, fun _ _ _ => hleft⟩, ?_⟩
  · rw [hhanded]
    exact h.once
  · rw [hhanded]
    exact h.blocks
  · rw [hrejected]
    refine ⟨nodup_snoc h.readers.1 hnot, fun r hr => ?_⟩
    rcases List.mem_append.mp hr with hr | hr
    · exact h.readers.2 r hr
    · rwa [List.mem_singleton.mp hr]
  · unfold Account
    rw [hhanded, hrejected, List.length_append, List.length_singleton]
    split
    · next hentry =>
        rw [hentry] at haccount
        exact .inr ⟨haccount, hleft⟩
    · next all hentry =>
        rw [hentry] at haccount
        exact haccount

theorem rejectGlobally_spec (s : HDFSBlockAssignerML) (all : FilesLocality) :
    (s.rejectGlobally id url all).fs = s.fs ∧
      if (s.finish id url).2 + 1 = s.numWorkersAlive then
        (s.rejectGlobally id url all).entry id url = none
      else (s.rejectGlobally id url all).entry id url = some all ∧
        ((s.rejectGlobally id url all).finish id url).2 = (s.finish id url).2 + 1 := by
  have hnum : ((s.setFilesLocality id url all).setFinish id url
      ((s.finish id url).1, (s.finish id url).2 + 1)).numWorkersAlive = s.numWorkersAlive := rfl
  unfold rejectGlobally
  simp only [hnum]
  split
  · exact ⟨rfl, entry_eraseUrl _⟩
  · refine ⟨rfl, entry_setFilesLocality s all, ?_⟩
    rw [finish_setFinish]

/-- **A reader of the load is answered.** -/
theorem Inv.answer (h : Inv fs id url n out s) {first : ℕ} {e : BlockReply} (hreader : e.reader < n)
    (hnot : e.reader ∉ rejected id url out)
    (htype : loadType = "" ∨ loadType = kLoadHdfsGlobally)
    (he : e.request.id = id ∧ e.request.url = url)
    (hanswer : HDFSBlockAssignerML.answer { s with numWorkersAlive := n } host url id loadType first =
      some (s', e.reply)) : Inv fs id url n (out ++ [e]) s' := by
  obtain ⟨hlt, all, hentry, hall, hcount⟩ := h.find hreader hnot n
  have hsystem : ({ s with numWorkersAlive := n } : HDFSBlockAssignerML).fs = some fs := h.system
  have hcases := answer_cases hsystem htype hentry hall hanswer
  have hstatic := find_static { s with numWorkersAlive := n } id url
  generalize HDFSBlockAssignerML.find { s with numWorkersAlive := n } id url = s₁
    at hentry hcount hstatic hcases
  have hfs : s₁.fs = some fs := hstatic.1.trans hsystem
  rcases hcases with ⟨host', blk, all', hfresh, hlocated, hreply, hs, hall'⟩ |
    ⟨all', hr, hnil, hall'⟩
  · obtain rfl : s' = s₁.setFilesLocality id url all' := hs
    exact h.give he hreply hfresh hlocated hfs (entry_setFilesLocality s₁ all') hall' hcount hlt
  · obtain ⟨rfl, hreply⟩ := Prod.mk.inj hr
    have hname : e.reply.1 = "" := by rw [hreply]
    have hleft : ∀ host blk, fs.Located url host blk → blk ∈ handed id url out :=
      fun host blk hlocated => hall.exhausted hnil hlocated
    obtain ⟨hfs', hspec⟩ := @rejectGlobally_spec id url s₁ all'
    rw [hcount, show s₁.numWorkersAlive = n from hstatic.2] at hspec
    refine h.refuse he hname hreader hnot hleft (hfs'.trans hfs) ?_
    split at hspec
    · next hlast =>
        rw [hspec]
        exact hlast
    · next hmore =>
        rw [hspec.1]
        exact ⟨hall', hspec.2, lt_of_le_of_ne hlt hmore⟩

theorem Inv.step (h : Inv fs id url n out s) {hosts : ℕ → String} {i : BlockInput}
    (hfair : Fair id url n hosts out i) (hstep : s.step i = some (s', o)) :
    Inv fs id url n (out ++ o) s' := by
  obtain ⟨⟨s₁, reply⟩, hanswer, heq⟩ := Option.map_eq_some_iff.mp hstep
  obtain ⟨rfl, rfl⟩ := Prod.mk.inj heq
  by_cases hours : i.request.id = id ∧ i.request.url = url
  · obtain ⟨hreader, -, hnum, htype, hnot⟩ := hfair hours.1 hours.2
    obtain ⟨rfl, rfl⟩ := hours
    simp only [hnum] at hanswer
    exact h.answer (e := ⟨i.reader, i.request, reply⟩) hreader hnot htype ⟨rfl, rfl⟩ hanswer
  · have hkeeps := keeps_answer hours hanswer
    exact h.other ⟨hkeeps.fs, hkeeps.entry, hkeeps.finish⟩ hours

/-! ## Runs -/

theorem inv_init (hfs : s.fs = some fs) (hentry : s.entry id url = none) :
    Inv fs id url n [] s := by
  refine ⟨hfs, List.nodup_nil, fun _ => nofun, ⟨List.nodup_nil, fun _ => nofun⟩, throughout_nil _, ?_⟩
  unfold Account
  rw [hentry]
  exact .inl ⟨rfl, rfl⟩

/-- **Every block is handed out once**, in every interleaving of the requests of the readers with
each other and with those of other loads, from every state in which the url has no entry. -/
theorem hands_out_once (fs : Hdfs) (id : ℕ) (url : String) (n : ℕ) (hosts : ℕ → String)
    (hn : 0 < n) (hreplicated : ∀ blk ∈ fs.blocks url, blk.2 ≠ []) (s₀ s : HDFSBlockAssignerML)
    (hfs : s₀.fs = some fs) (hentry : s₀.entry id url = none) (inputs : List BlockInput)
    (out : List BlockReply)
    (halong : Along step (fun before _ i => Fair id url n hosts before i) [] s₀ inputs)
    (hrun : run step s₀ inputs = some (s, out)) : HandedOnce fs id url n out s := by
  have hinv : Inv fs id url n out s := by
    refine run_along (I := fun out s => Inv fs id url n out s)
      (fun hI hfair hstep => ?_) (inv_init hfs hentry) halong hrun
    exact hI.step hfair hstep
  have hlocated : ∀ blk, blk ∈ (fs.blocks url).map Prod.fst ↔ ∃ host, fs.Located url host blk := by
    intro blk
    constructor
    · intro hblk
      obtain ⟨p, hp, rfl⟩ := List.mem_map.mp hblk
      obtain ⟨host, hhost⟩ := List.exists_mem_of_ne_nil _ (hreplicated p hp)
      exact ⟨host, p.2, hp, hhost⟩
    · rintro ⟨host, hosts, hp, -⟩
      exact List.mem_map.mpr ⟨_, hp, rfl⟩
  refine ⟨hinv.once, fun blk hblk => (hlocated blk).mpr (hinv.blocks blk hblk), ?_, fun hall => ?_,
    fun i htype => isSome_step s i htype⟩
  · refine hinv.reject.imp fun before e hreject hid hurl hempty blk hblk => ?_
    obtain ⟨host, hhost⟩ := (hlocated blk).mp hblk
    exact hreject hid hurl hempty host blk hhost
  · have hsubset : List.range n ⊆ rejected id url out :=
      fun r hr => hall r (List.mem_range.mp hr)
    have hlength := (List.subperm_of_subset List.nodup_range hsubset).length_le
    rw [List.length_range] at hlength
    have haccount := hinv.account
    unfold Account at haccount
    cases hentry : s.entry id url with
    | none =>
        rw [hentry] at haccount
        rcases haccount with ⟨-, hnil⟩ | ⟨-, hleft⟩
        · rw [hnil] at hlength
          exact absurd hlength (Nat.not_le_of_lt hn)
        · refine ⟨fun blk hblk => ?_, hinv.system, rfl⟩
          obtain ⟨host, hhost⟩ := (hlocated blk).mp hblk
          exact hleft host blk hhost
    | some all =>
        rw [hentry] at haccount
        exact absurd haccount.2.2 (Nat.not_lt_of_le hlength)

/-- A file of two blocks; the first one has two replicas. -/
def twoBlocks : Hdfs where
  listDirectory _ := [⟨true, "/a9a/part-0", 100, 64, by decide⟩]
  blockHosts _ k := if k = 0 then ["worker1", "worker2"] else ["worker2"]

/-- The assigner before any load. -/
def start (fs : Hdfs) : HDFSBlockAssignerML := ⟨some fs, 0, ∅, ∅⟩

/-- Two readers take turns. -/
def twoReaders : List BlockInput :=
  [⟨0, ⟨"/a9a", "worker1", 2, 7, ""⟩, 0⟩, ⟨1, ⟨"/a9a", "worker2", 2, 7, ""⟩, 0⟩,
    ⟨0, ⟨"/a9a", "worker1", 2, 7, ""⟩, 0⟩, ⟨1, ⟨"/a9a", "worker2", 2, 7, ""⟩, 0⟩]

/-- Each of the two readers gets a block, and is rejected then. -/
theorem hands_out_once_twoBlocks : ∃ out s, run step (start twoBlocks) twoReaders = some (s, out) ∧
    handed 7 "/a9a" out = [⟨"/a9a/part-0\x00", 0⟩, ⟨"/a9a/part-0\x00", 64⟩] ∧
    HandedOnce twoBlocks 7 "/a9a" 2 out s := by
  have hrun : (run step (start twoBlocks) twoReaders).map (fun r => handed 7 "/a9a" r.2) =
      some [⟨"/a9a/part-0\x00", 0⟩, ⟨"/a9a/part-0\x00", 64⟩] := rfl
  obtain ⟨⟨s, out⟩, hrun, hhanded⟩ := Option.map_eq_some_iff.mp hrun
  refine ⟨out, s, hrun, hhanded, hands_out_once twoBlocks 7 "/a9a" 2
    (fun r => if r = 0 then "worker1" else "worker2") (by decide) ?_ _ s rfl rfl twoReaders out ?_
    hrun⟩
  · decide
  · apply along_cons rfl fun _ _ => ⟨by decide, rfl, rfl, .inl rfl, by decide⟩
    apply along_cons rfl fun _ _ => ⟨by decide, rfl, rfl, .inl rfl, by decide⟩
    apply along_cons rfl fun _ _ => ⟨by decide, rfl, rfl, .inl rfl, by decide⟩
    apply along_cons rfl fun _ _ => ⟨by decide, rfl, rfl, .inl rfl, by decide⟩
    trivial

end HDFSBlockAssignerML

end FlexPS.Input
