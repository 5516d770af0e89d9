import FlexPS.Input.HDFSBlockAssignerML

/-!
# The assigner of files

The master hands the files below a url out to the requests of a load.  The files of a url are
recorded when the id is seen for the first time; a second url of the same id is never looked up, and
its requests are told that there are no files.

## Main definitions

* `FileTree`, `FileTree.files` — the files below a url.
* `HDFSFileAssignerML` and its `answer`.
* `HDFSFileAssignerML.FilesHandedOnce` — what the loads are to do.
* `HDFSFileAssignerML.hands_out_files` — they do as long as every id has one url.
-/

namespace FlexPS.Input

open Lib

/-- What the file system tells of a path: its name, and the files below it with the hosts of each.
The names are relative to a directory; a plain file is below itself. -/
structure PathInfo where
  isDirectory : Bool
  name : String
  files : List (String × List String)
  files_nodup : (files.map Prod.fst).Nodup
  hosts_nodup : ∀ f ∈ files, f.2.Nodup
  hosts_ne_nil : ∀ f ∈ files, f.2 ≠ []

/-- What the file system tells of every path. -/
structure FileTree where
  pathInfo : String → Option PathInfo

namespace FileTree

/-- The part of a url before the filter. -/
def basePath (url : String) : String := .ofList (url.toList.takeWhile (· ≠ ':'))

/-- The files below a url. -/
def files (t : FileTree) (url : String) : List (String × List String) :=
  match t.pathInfo (basePath url) with
  | some p => p.files
  | none => []

/-- The base that is put before the name of a file. -/
def base (t : FileTree) (url : String) : String :=
  match t.pathInfo (basePath url) with
  | some p => if p.name.toList.getLast? = some '/' then p.name else p.name ++ "/"
  | none => ""

/-- The file has a replica at the host. -/
def Located (t : FileTree) (url host file : String) : Prop :=
  ∃ hosts, (file, hosts) ∈ t.files url ∧ host ∈ hosts

/-- The names under which the files below a url are handed out. -/
def names (t : FileTree) (url : String) : List String :=
  (t.files url).map fun f => t.base url ++ f.1

end FileTree

/-- `HDFSFileInfo`. -/
structure HDFSFileInfo where
  base : String
  filesToAssign : List String

/-- What is left of each url, for every host. -/
abbrev FileInfos := Dict String (Dict String HDFSFileInfo)

namespace FileInfos

/-- `all_info[host][fileurl]`. -/
def info (all : FileInfos) (host fileurl : String) : HDFSFileInfo :=
  (all.getD host ∅).getD fileurl ⟨"", []⟩

def setInfo (all : FileInfos) (host fileurl : String) (i : HDFSFileInfo) : FileInfos :=
  all.set host ((all.getD host ∅).set fileurl i)

/-- Pop back all replicas. -/
def popReplicas (all : FileInfos) (file : String) : FileInfos :=
  all.mapValues fun urls => urls.mapValues fun i =>
    { i with filesToAssign := i.filesToAssign.erase file }

end FileInfos

/-- `HDFSFileAssignerML`. -/
structure HDFSFileAssignerML where
  fileInfos : Dict ℕ FileInfos
  finishMultiDict : Dict ℕ (Dict String (Dict String ℕ × ℕ))

/-- A request, as the master receives it. -/
structure FileRequest where
  host : String
  fileurl : String
  id : ℕ
  numThreads : ℕ
  loadType : String

/-- The next request, and which element of an unordered map is its first one. -/
structure FileInput where
  request : FileRequest
  first : ℕ

/-- A request that has been answered. -/
structure FileReply where
  request : FileRequest
  reply : String

namespace HDFSFileAssignerML

/-- `finish_multi_dict[id][fileurl]`. -/
def finish (s : HDFSFileAssignerML) (id : ℕ) (fileurl : String) : Dict String ℕ × ℕ :=
  (s.finishMultiDict.getD id ∅).getD fileurl (∅, 0)

def setFinish (s : HDFSFileAssignerML) (id : ℕ) (fileurl : String) (count : Dict String ℕ × ℕ) :
    HDFSFileAssignerML :=
  let urls := (s.finishMultiDict.getD id ∅).set fileurl count
  { s with finishMultiDict := s.finishMultiDict.set id urls }

def setFileInfos (s : HDFSFileAssignerML) (id : ℕ) (all : FileInfos) : HDFSFileAssignerML :=
  { s with fileInfos := s.fileInfos.set id all }

/-- Record a replica of a file. -/
def record (base url file : String) (all : FileInfos) (host : String) : FileInfos :=
  all.setInfo host url ⟨base, (all.info host url).filesToAssign ++ [file]⟩

/-- `prepare`; `none` for a path that is not found.  Only a directory resets the rejections of its
hosts. -/
def prepare (t : FileTree) (s : HDFSFileAssignerML) (url : String) (id : ℕ) :
    Option HDFSFileAssignerML := do
  let p ← t.pathInfo (FileTree.basePath url)
  let all := p.files.foldl (fun all f => f.2.foldl (record (t.base url) url f.1) all)
    (s.fileInfos.getD id ∅)
  let s := s.setFileInfos id all
  if p.isDirectory then
    let count := s.finish id url
    some (s.setFinish id url ((p.files.flatMap Prod.snd).foldl (fun d host => d.set host 0) count.1,
      count.2))
  else some s

/-- Find the id. -/
def find (t : FileTree) (s : HDFSFileAssignerML) (fileurl : String) (id : ℕ) :
    Option HDFSFileAssignerML :=
  if id ∈ s.fileInfos then some s
  else prepare t (s.setFinish id fileurl ((s.finish id fileurl).1, 0)) fileurl id

/-- The own host, or the first other one with a file of the url. -/
def selectHost (all : FileInfos) (host fileurl : String) (first : ℕ) : Option String :=
  if (all.info host fileurl).filesToAssign ≠ [] then some host
  else
    let hosts := all.keys.filter fun h => (all.info h fileurl).filesToAssign ≠ []
    hosts[first % hosts.length]?

/-- Choose the last file of the host, and pop it and all replicas. -/
def assign (s : HDFSFileAssignerML) (id : ℕ) (fileurl : String) (all : FileInfos) (host : String) :
    Option (HDFSFileAssignerML × String) := do
  let i := all.info host fileurl
  let file ← i.filesToAssign.getLast?
  let all := all.setInfo host fileurl { i with filesToAssign := i.filesToAssign.dropLast }
  some (s.setFileInfos id (all.popReplicas file), i.base ++ file)

/-- `answer`; `none` for an exception or a failed assertion. -/
def answer (t : FileTree) (s : HDFSFileAssignerML) (host fileurl : String) (id : ℕ)
    (loadType : String) (first : ℕ) : Option (HDFSFileAssignerML × String) := do
  let s ← s.find t fileurl id
  let all := s.fileInfos.getD id ∅
  let all := all.setInfo host fileurl (all.info host fileurl)
  let count := s.finish id fileurl
  if loadType = "" ∨ loadType = kLoadHdfsGlobally then
    match selectHost all host fileurl first with
    | some h => s.assign id fileurl all h
    | none => some ((s.setFileInfos id all).setFinish id fileurl (count.1, count.2 + 1), "")
  else if loadType = kLoadHdfsLocally then
    if (all.info host fileurl).filesToAssign = [] then
      let rejected := count.1.set host (count.1.getD host 0 + 1)
      some ((s.setFileInfos id all).setFinish id fileurl (rejected, count.2), "")
    else s.assign id fileurl all host
  else none

/-- `response`. -/
def step (t : FileTree) (s : HDFSFileAssignerML) (i : FileInput) :
    Option (HDFSFileAssignerML × List FileReply) :=
  let r := i.request
  (s.answer t r.host r.fileurl r.id r.loadType i.first).map fun p => (p.1, [⟨r, p.2⟩])

/-! ## What the loads are to do -/

/-- The files that have been handed out for a url. -/
def handed (id : ℕ) (url : String) (out : List FileReply) : List String :=
  out.filterMap fun e =>
    if e.request.id = id ∧ e.request.fileurl = url ∧ e.reply ≠ "" then some e.reply else none

/-- The url of the first request of an id. -/
def firstUrl (id : ℕ) (out : List FileReply) : Option String :=
  (out.find? fun e => e.request.id = id).map fun e => e.request.fileurl

/-- **Each file of each url is handed out once**: never twice, and before a request for the url is
told that there are no more. -/
structure FilesHandedOnce (t : FileTree) (out : List FileReply) : Prop where
  once : ∀ id url, (handed id url out).Nodup
  files : ∀ id url, ∀ name ∈ handed id url out, name ∈ t.names url
  reject : Throughout (fun before e => e.reply = "" → ∀ name ∈ t.names e.request.fileurl,
    name ∈ handed e.request.id e.request.fileurl before) out

/-- Data is loaded globally. -/
def Global (i : FileInput) : Prop :=
  i.request.loadType = "" ∨ i.request.loadType = kLoadHdfsGlobally

/-- The id has been seen with this url first, or there are no files below this url. -/
def OneUrl (t : FileTree) (before : List FileReply) (i : FileInput) : Prop :=
  ∀ url, firstUrl i.request.id before = some url →
    url = i.request.fileurl ∨ t.files i.request.fileurl = []

end HDFSFileAssignerML

/-! ## Reading and writing what is left -/

namespace FileInfos

variable {all : FileInfos} {host host' fileurl fileurl' file : String} {i : HDFSFileInfo}

theorem info_setInfo_self (all : FileInfos) (host fileurl : String) (i : HDFSFileInfo) :
    (all.setInfo host fileurl i).info host fileurl = i := by
  rw [info, setInfo, Dict.getD_set_self, Dict.getD_set_self]

theorem info_setInfo_of_ne (h : ¬ (host' = host ∧ fileurl' = fileurl)) :
    (all.setInfo host fileurl i).info host' fileurl' = all.info host' fileurl' := by
  rw [info, info, setInfo]
  by_cases hhost : host' = host
  · subst hhost
    rw [Dict.getD_set_self, Dict.getD_set_of_ne _ fun hurl => h ⟨rfl, hurl⟩]
  · rw [Dict.getD_set_of_ne _ hhost]

/-- Reading an entry may create it. -/
theorem info_setInfo_info (all : FileInfos) (host fileurl host' fileurl' : String) :
    (all.setInfo host fileurl (all.info host fileurl)).info host' fileurl' =
      all.info host' fileurl' := by
  by_cases h : host' = host ∧ fileurl' = fileurl
  · obtain ⟨rfl, rfl⟩ := h
    exact info_setInfo_self all host' fileurl' _
  · exact info_setInfo_of_ne h

theorem info_popReplicas (all : FileInfos) (file host fileurl : String) :
    (all.popReplicas file).info host fileurl =
      ⟨(all.info host fileurl).base, (all.info host fileurl).filesToAssign.erase file⟩ := by
  have hurls : (all.popReplicas file).getD host ∅ = Dict.mapValues (fun i : HDFSFileInfo =>
      { i with filesToAssign := i.filesToAssign.erase file }) (all.getD host ∅) :=
    Dict.getD_mapValues _ all host ∅
  rw [info, hurls]
  exact Dict.getD_mapValues (fun i : HDFSFileInfo =>
    { i with filesToAssign := i.filesToAssign.erase file }) (all.getD host ∅) fileurl ⟨"", []⟩

end FileInfos

namespace HDFSFileAssignerML

variable {t : FileTree} {s s' : HDFSFileAssignerML} {id id' : ℕ} {u url host file : String}
  {all : FileInfos} {gone : List String} {out o : List FileReply}

/-- What is left of the url for which an id has been prepared. -/
structure Recorded (t : FileTree) (u : String) (gone : List String) (all : FileInfos) : Prop where
  replicas : Replicas (t.Located u) gone fun host => (all.info host u).filesToAssign
  base : ∀ host, (all.info host u).filesToAssign ≠ [] → (all.info host u).base = t.base u
  others : ∀ host url, url ≠ u → (all.info host url).filesToAssign = []

theorem Recorded.congr (h : Recorded t u gone all) {all' : FileInfos}
    (hinfo : ∀ host url, all'.info host url = all.info host url) : Recorded t u gone all' := by
  refine ⟨?_, fun host => ?_, fun host url => ?_⟩
  · simpa only [hinfo] using h.replicas
  · rw [hinfo]
    exact h.base host
  · rw [hinfo]
    exact h.others host url

/-! ## Preparing an id -/

/-- A file is recorded at its hosts. -/
theorem info_record (base : String) {hosts : List String} (hnodup : hosts.Nodup)
    (all : FileInfos) (host url' : String) :
    (hosts.foldl (record base url file) all).info host url' =
      if url' = url ∧ host ∈ hosts then ⟨base, (all.info host url).filesToAssign ++ [file]⟩
      else all.info host url' := by
  induction hosts generalizing all with
  | nil => simp
  | cons h hosts ih =>
      obtain ⟨hnot, hnodup⟩ := List.nodup_cons.mp hnodup
      rw [List.foldl_cons, ih hnodup]
      by_cases hurl : url' = url
      · subst hurl
        by_cases hhost : host = h
        · subst hhost
          simp only [hnot, and_false, if_false, List.mem_cons, true_or, and_true, if_true]
          exact FileInfos.info_setInfo_self all host url' _
        · have hkeep : (record base url' file all h).info host url' = all.info host url' :=
            FileInfos.info_setInfo_of_ne fun heq => hhost heq.1
          simp only [hkeep, List.mem_cons, hhost, false_or]
      · have hkeep : (record base url file all h).info host url' = all.info host url' :=
          FileInfos.info_setInfo_of_ne fun heq => hurl heq.2
        simp only [hurl, false_and, if_false, hkeep]

/-- **Recording the files of a url** at each host that has a replica. -/
theorem info_record_files (base : String) {files : List (String × List String)}
    (hnodup : ∀ f ∈ files, f.2.Nodup) (all : FileInfos)
    (hbase : ∀ host, (all.info host url).filesToAssign ≠ [] → (all.info host url).base = base)
    {all' : FileInfos}
    (hall' : all' = files.foldl (fun all f => f.2.foldl (record base url f.1) all) all) :
    (∀ host, (all'.info host url).filesToAssign =
      (all.info host url).filesToAssign ++ (files.filter fun f => host ∈ f.2).map Prod.fst) ∧
    (∀ host, (all'.info host url).filesToAssign ≠ [] → (all'.info host url).base = base) ∧
    ∀ host url', url' ≠ url → all'.info host url' = all.info host url' := by
  induction files generalizing all with
  | nil =>
      subst hall'
      exact ⟨fun host => by simp, hbase, fun _ _ _ => rfl⟩
  | cons f files ih =>
      have hf := hnodup f (List.mem_cons_self ..)
      have hown : ∀ host, (f.2.foldl (record base url f.1) all).info host url =
          if host ∈ f.2 then ⟨base, (all.info host url).filesToAssign ++ [f.1]⟩
          else all.info host url := by
        intro host
        rw [info_record base hf]
        simp only [true_and]
      have hbase₁ : ∀ host, ((f.2.foldl (record base url f.1) all).info host url).filesToAssign ≠ [] →
          ((f.2.foldl (record base url f.1) all).info host url).base = base := by
        intro host
        rw [hown]
        split
        · exact fun _ => rfl
        · exact hbase host
      obtain ⟨hfiles, hbase', hothers⟩ := ih (fun f' hf' => hnodup f' (List.mem_cons_of_mem _ hf'))
        (f.2.foldl (record base url f.1) all) hbase₁ hall'
      refine ⟨fun host => ?_, hbase', fun host url' hurl => ?_⟩
      · rw [hfiles, hown]
        by_cases hhost : host ∈ f.2
        · simp [hhost]
        · simp [hhost]
      · rw [hothers host url' hurl, info_record base hf, if_neg fun heq => hurl heq.1]

theorem FileTree.files_nodup (t : FileTree) (url : String) :
    ((t.files url).map Prod.fst).Nodup ∧ ∀ f ∈ t.files url, f.2.Nodup ∧ f.2 ≠ [] := by
  unfold FileTree.files
  split
  · next p _ => exact ⟨p.files_nodup, fun f hf => ⟨p.hosts_nodup f hf, p.hosts_ne_nil f hf⟩⟩
  · exact ⟨List.nodup_nil, fun _ => nofun⟩

/-- **An id is prepared** for the url of its first request. -/
theorem prepare_spec (hid : id ∉ s.fileInfos) (h : prepare t s url id = some s') :
    (∃ all, s'.fileInfos = s.fileInfos.set id all ∧ Recorded t url [] all) := by
  obtain ⟨p, hp, h⟩ := Option.bind_eq_some_iff.mp h
  have hfiles : t.files url = p.files := by
    unfold FileTree.files
    rw [hp]
  obtain ⟨hnames, hhosts⟩ := FileTree.files_nodup t url
  rw [hfiles] at hnames hhosts
  refine ⟨p.files.foldl (fun all f => f.2.foldl (record (t.base url) url f.1) all)
    (s.fileInfos.getD id ∅), ?_, ?_⟩
  · simp only at h
    split at h
    · obtain rfl := Option.some.inj h
      rfl
    · obtain rfl := Option.some.inj h
      rfl
  · rw [Dict.getD_of_not_mem hid]
    obtain ⟨hassign, hbase, hothers⟩ := info_record_files (t.base url)
      (fun f hf => (hhosts f hf).1) ∅ (fun host hne => absurd rfl hne) rfl
    refine ⟨⟨fun host file => ?_, fun host => ?_⟩, hbase, fun host url' hurl => ?_⟩
    · rw [hassign]
      change file ∈ ([] : List String) ++ _ ↔ _
      simp [FileTree.Located, hfiles]
    · rw [hassign]
      change (([] : List String) ++ _).Nodup
      rw [List.nil_append]
      exact hnames.sublist ((List.filter_sublist ..).map Prod.fst)
    · rw [hothers host url' hurl]
      rfl

/-! ## Answering a request -/

/-- The other ids do not change. -/
def KeepsOthers (id : ℕ) (s s' : HDFSFileAssignerML) : Prop :=
  ∀ id', id' ≠ id → (id' ∈ s'.fileInfos ↔ id' ∈ s.fileInfos) ∧
    s'.fileInfos.getD id' ∅ = s.fileInfos.getD id' ∅

theorem keepsOthers_of_set (h : s'.fileInfos = s.fileInfos.set id all) : KeepsOthers id s s' := by
  intro id' hid
  rw [h]
  exact ⟨by simp [hid], Dict.getD_set_of_ne _ hid _ _⟩

/-- After the id has been found. -/
theorem find_spec (h : s.find t url id = some s') :
    KeepsOthers id s s' ∧ id ∈ s'.fileInfos ∧
      if id ∈ s.fileInfos then s' = s else Recorded t url [] (s'.fileInfos.getD id ∅) := by
  unfold find at h
  split at h
  · next hid =>
      obtain rfl := Option.some.inj h
      rw [if_pos hid]
      exact ⟨fun id' _ => ⟨Iff.rfl, rfl⟩, hid, rfl⟩
  · next hid =>
      have hid' : id ∉ (s.setFinish id url ((s.finish id url).1, 0)).fileInfos := hid
      obtain ⟨all, hall, hrecorded⟩ := prepare_spec hid' h
      have hall : s'.fileInfos = s.fileInfos.set id all := hall
      rw [if_neg hid]
      refine ⟨keepsOthers_of_set hall, ?_, ?_⟩
      · rw [hall]
        simp
      · rw [hall, Dict.getD_set_self]
        exact hrecorded

theorem selectHost_some {first : ℕ} {h : String} (hselect : selectHost all host url first = some h) :
    (all.info h url).filesToAssign ≠ [] := by
  unfold selectHost at hselect
  split at hselect
  · next hne =>
      obtain rfl := Option.some.inj hselect
      exact hne
  · have hmem := List.mem_filter.mp (List.mem_of_getElem? hselect)
    simpa using hmem.2

theorem selectHost_none {first : ℕ} (hselect : selectHost all host url first = none) (h : String) :
    (all.info h url).filesToAssign = [] := by
  unfold selectHost at hselect
  split at hselect
  · cases hselect
  · by_contra hne
    have hkey : h ∈ all.keys := by
      by_contra hkey
      refine hne ?_
      rw [FileInfos.info, Dict.getD_of_not_mem hkey]
      rfl
    have hmem : h ∈ all.keys.filter fun h => (all.info h url).filesToAssign ≠ [] := by
      rw [List.mem_filter]
      exact ⟨hkey, by simpa using hne⟩
    have hlt := Nat.mod_lt first (List.length_pos_of_mem hmem)
    rw [List.getElem?_eq_getElem hlt] at hselect
    cases hselect

/-- Popping the last file of a list without repetitions, and then all replicas of it. -/
theorem erase_dropLast {l : List String} (hl : l.Nodup) {x : String} (hx : l.getLast? = some x) :
    l.dropLast.erase x = l.erase x := by
  obtain ⟨ys, rfl⟩ := List.getLast?_eq_some_iff.mp hx
  have hnot : x ∉ ys := fun hmem =>
    (List.nodup_append.mp hl).2.2 x hmem x (List.mem_singleton_self x) rfl
  rw [List.dropLast_concat, List.erase_of_not_mem hnot, List.erase_append_right _ hnot,
    List.erase_cons_head, List.append_nil]

/-- **A file is handed out.** -/
theorem assign_spec {r : HDFSFileAssignerML × String} (hrecorded : Recorded t u gone all)
    (hne : (all.info host url).filesToAssign ≠ []) (h : s.assign id url all host = some r) :
    url = u ∧ ∃ file all', t.Located u host file ∧ file ∉ gone ∧ r.2 = t.base u ++ file ∧
      r.1.fileInfos = s.fileInfos.set id all' ∧ Recorded t u (gone ++ [file]) all' := by
  obtain rfl : url = u := by
    by_contra hurl
    exact hne (hrecorded.others host url hurl)
  obtain ⟨file, hfile, h⟩ := Option.bind_eq_some_iff.mp h
  obtain rfl := Option.some.inj h
  obtain ⟨hlocated, hfresh⟩ := hrecorded.replicas.fresh (List.mem_of_getLast? hfile)
  refine ⟨rfl, file, _, hlocated, hfresh, ?_, rfl, ?_⟩
  · rw [hrecorded.base host hne]
  · have hinfo : ∀ host' url', ((all.setInfo host url { all.info host url with
        filesToAssign := (all.info host url).filesToAssign.dropLast }).popReplicas file).info
        host' url' = ⟨(all.info host' url').base, (all.info host' url').filesToAssign.erase file⟩ := by
      intro host' url'
      rw [FileInfos.info_popReplicas]
      by_cases hsame : host' = host ∧ url' = url
      · obtain ⟨rfl, rfl⟩ := hsame
        rw [FileInfos.info_setInfo_self, erase_dropLast (hrecorded.replicas.nodup host') hfile]
      · rw [FileInfos.info_setInfo_of_ne hsame]
    refine ⟨hrecorded.replicas.take fun host' => by rw [hinfo], fun host' hleft => ?_,
      fun host' url' hurl => ?_⟩
    · rw [hinfo] at hleft ⊢
      refine hrecorded.base host' fun hnil => hleft ?_
      simp only [hnil, List.erase_nil]
    · rw [hinfo, hrecorded.others host' url' hurl, List.erase_nil]

/-- **A global request** is given a file of the url that has been prepared, or nothing is left of the
url that is asked for. -/
theorem answer_cases {r : HDFSFileAssignerML × String} {first : ℕ} {loadType : String}
    {s₁ : HDFSFileAssignerML} (hfind : s.find t url id = some s₁)
    (htype : loadType = "" ∨ loadType = kLoadHdfsGlobally)
    (hrecorded : Recorded t u gone (s₁.fileInfos.getD id ∅))
    (h : s.answer t host url id loadType first = some r) :
    ∃ all', r.1.fileInfos = s₁.fileInfos.set id all' ∧
      ((url = u ∧ ∃ host' file, t.Located u host' file ∧ file ∉ gone ∧ r.2 = t.base u ++ file ∧
        Recorded t u (gone ++ [file]) all') ∨
      (r.2 = "" ∧ Recorded t u gone all' ∧
        ∀ host', ((s₁.fileInfos.getD id ∅).info host' url).filesToAssign = [])) := by
  unfold answer at h
  rw [hfind] at h
  simp only [Option.bind_eq_bind, Option.bind_some, if_pos htype] at h
  have hinfo := FileInfos.info_setInfo_info (s₁.fileInfos.getD id ∅) host url
  have hset := hrecorded.congr hinfo
  split at h
  · next host' hselect =>
      obtain ⟨hurl, file, all', hlocated, hfresh, hreply, hs, hall'⟩ :=
        assign_spec hset (selectHost_some hselect) h
      exact ⟨all', hs, .inl ⟨hurl, host', file, hlocated, hfresh, hreply, hall'⟩⟩
  · next hselect =>
      obtain rfl := Option.some.inj h
      refine ⟨_, rfl, .inr ⟨rfl, hset, fun host' => ?_⟩⟩
      rw [← hinfo]
      exact selectHost_none hselect host'

/-! ## The invariant -/

theorem handed_snoc (out : List FileReply) (e : FileReply) (id : ℕ) (url : String) :
    handed id url (out ++ [e]) =
      if e.request.id = id ∧ e.request.fileurl = url ∧ e.reply ≠ "" then
        handed id url out ++ [e.reply]
      else handed id url out := by
  rw [handed, List.filterMap_append]
  split
  · next h => simp [handed, h]
  · next h => simp [handed, h]

theorem firstUrl_snoc (out : List FileReply) (e : FileReply) (id : ℕ) :
    firstUrl id (out ++ [e]) = (firstUrl id out).or
      (if e.request.id = id then some e.request.fileurl else none) := by
  rw [firstUrl, List.find?_append, firstUrl]
  cases out.find? fun e => e.request.id = id with
  | some e' => rfl
  | none =>
      by_cases hid : e.request.id = id
      · simp [hid]
      · simp [hid]

/-- What is known of an id: it has not been seen, or the files of its first url are divided into
those that have been handed out and those that are left. -/
def Account (t : FileTree) (id : ℕ) (out : List FileReply) (s : HDFSFileAssignerML) : Prop :=
  match firstUrl id out with
  | none => id ∉ s.fileInfos
  | some u => id ∈ s.fileInfos ∧ ∃ gone : List String, gone.Nodup ∧
      (∀ file ∈ gone, ∃ host, t.Located u host file) ∧
      handed id u out = gone.map (fun file => t.base u ++ file) ∧
      Recorded t u gone (s.fileInfos.getD id ∅)

/-- The invariant of all loads. -/
structure Inv (t : FileTree) (out : List FileReply) (s : HDFSFileAssignerML) : Prop where
  account : ∀ id, Account t id out s
  others : ∀ id url, firstUrl id out ≠ some url → handed id url out = []
  reject : Throughout (fun before e => e.reply = "" → ∀ name ∈ t.names e.request.fileurl,
    name ∈ handed e.request.id e.request.fileurl before) out

/-- Other ids. -/
theorem Account.keep (h : Account t id' out s) (hkeeps : KeepsOthers id s s') {e : FileReply}
    (he : e.request.id = id) (hne : id' ≠ id) : Account t id' (out ++ [e]) s' := by
  obtain ⟨hmem, hget⟩ := hkeeps id' hne
  have hid : e.request.id ≠ id' := fun heq => hne (heq.symm.trans he)
  have hfirst : firstUrl id' (out ++ [e]) = firstUrl id' out := by
    rw [firstUrl_snoc, if_neg hid, Option.or_none]
  have hhanded : ∀ url, handed id' url (out ++ [e]) = handed id' url out := fun url => by
    rw [handed_snoc, if_neg fun heq => hid heq.1]
  unfold Account at h ⊢
  rw [hfirst]
  split at h
  · rwa [hmem]
  · rwa [hmem, hget, hhanded]

/-- The id of a request is prepared for the url of its first request. -/
theorem Account.find (h : Account t id out s) {s₁ : HDFSFileAssignerML}
    (hothers : firstUrl id out = none → handed id url out = [])
    (hfind : s.find t url id = some s₁) :
    ∃ u gone, (firstUrl id out).getD url = u ∧ gone.Nodup ∧
      (∀ file ∈ gone, ∃ host, t.Located u host file) ∧
      handed id u out = gone.map (fun file => t.base u ++ file) ∧
      Recorded t u gone (s₁.fileInfos.getD id ∅) := by
  obtain ⟨-, -, hspec⟩ := find_spec hfind
  unfold Account at h
  split at h
  · next hnone =>
      rw [if_neg h] at hspec
      rw [hnone]
      exact ⟨url, [], rfl, List.nodup_nil, List.forall_mem_nil _, hothers hnone, hspec⟩
  · next u hsome =>
      obtain ⟨hid, gone, hgone⟩ := h
      rw [if_pos hid] at hspec
      subst hspec
      rw [hsome]
      exact ⟨u, gone, rfl, hgone⟩

/-- The name under which a file is handed out is not empty. -/
theorem Located.name_ne (h : t.Located url host file) : t.base url ++ file ≠ "" := by
  have hbase : 0 < (t.base url).length := by
    obtain ⟨hosts, hfile, -⟩ := h
    unfold FileTree.files at hfile
    unfold FileTree.base
    split at hfile
    · next p hp =>
        split
        · next hslash =>
            have hmem := List.mem_of_getLast? hslash
            rw [← String.length_toList]
            exact List.length_pos_of_mem hmem
        · rw [String.length_append]
          exact Nat.succ_pos _
    · cases hfile
  intro hempty
  have hlength := congrArg String.length hempty
  rw [String.length_append, String.length_empty] at hlength
  omega

/-- The request `e` has been answered: its id is prepared for `u`, and another url gets nothing. -/
theorem Inv.snoc (h : Inv t out s) {e : FileReply} (hkeeps : KeepsOthers e.request.id s s')
    (hu : (firstUrl e.request.id out).getD e.request.fileurl = u)
    (hnothing : e.request.fileurl ≠ u → e.reply = "")
    (haccount : firstUrl e.request.id (out ++ [e]) = some u →
      Account t e.request.id (out ++ [e]) s')
    (hreject : e.reply = "" → ∀ name ∈ t.names e.request.fileurl,
      name ∈ handed e.request.id e.request.fileurl out) : Inv t (out ++ [e]) s' := by
  have hfirst : firstUrl e.request.id (out ++ [e]) = some u := by
    rw [firstUrl_snoc, if_pos rfl, ← hu]
    cases firstUrl e.request.id out with
    | none => rfl
    | some u' => rfl
  refine ⟨fun id => ?_, fun id url hne => ?_, throughout_snoc.mpr ⟨h.reject, hreject⟩⟩
  · by_cases hid : id = e.request.id
    · subst hid
      exact haccount hfirst
    · exact (h.account id).keep hkeeps rfl hid
  · by_cases hid : id = e.request.id
    · subst hid
      rw [hfirst] at hne
      have hurl : url ≠ u := fun heq => hne (congrArg some heq.symm)
      rw [handed_snoc, if_neg]
      · refine h.others _ url fun hsome => ?_
        rw [hsome] at hu
        exact hurl hu
      · rintro ⟨-, rfl, hreply⟩
        exact hreply (hnothing hurl)
    · rw [firstUrl_snoc, if_neg fun heq => hid heq.symm, Option.or_none] at hne
      rw [handed_snoc, if_neg fun heq => hid heq.1.symm]
      exact h.others id url hne

theorem Inv.next (h : Inv t out s) {i : FileInput} (hglobal : Global i)
    (hone : OneUrl t out i) (hstep : step t s i = some (s', o)) : Inv t (out ++ o) s' := by
  obtain ⟨⟨s₂, reply⟩, hanswer, heq⟩ := Option.map_eq_some_iff.mp hstep
  obtain ⟨rfl, rfl⟩ := Prod.mk.inj heq
  obtain ⟨s₁, hfind, -⟩ := Option.bind_eq_some_iff.mp hanswer
  obtain ⟨u, gone, hu, hnodup, hgone, hhanded, hrecorded⟩ := (h.account i.request.id).find
    (fun hnone => h.others _ _ (by rw [hnone]; nofun)) hfind
  obtain ⟨all', hall', hcases⟩ := answer_cases hfind hglobal hrecorded hanswer
  have hkeeps : KeepsOthers i.request.id s s₂ := by
    intro id' hid
    obtain ⟨hmem, hget⟩ := (find_spec hfind).1 id' hid
    obtain ⟨hmem', hget'⟩ := keepsOthers_of_set hall' id' hid
    exact ⟨hmem'.trans hmem, hget'.trans hget⟩
  have hid : i.request.id ∈ s₂.fileInfos := by
    rw [hall']
    simp
  have hget : s₂.fileInfos.getD i.request.id ∅ = all' := by
    rw [hall', Dict.getD_set_self]
  rcases hcases with ⟨hurl, host', file, hlocated, hfresh, hreply, hall⟩ | ⟨hreply, hall, hnil⟩
  · -- A file is handed out.
    have hreply : reply = t.base u ++ file := hreply
    have hname : reply ≠ "" := by
      rw [hreply]
      exact Located.name_ne hlocated
    refine h.snoc (e := ⟨i.request, reply⟩) hkeeps hu (fun hne => absurd hurl hne)
      (fun hfirst => ?_) fun hempty => absurd hempty hname
    unfold Account
    rw [hfirst]
    refine ⟨hid, gone ++ [file], nodup_snoc hnodup hfresh, fun file' hfile' => ?_, ?_, ?_⟩
    · rcases List.mem_append.mp hfile' with hfile' | hfile'
      · exact hgone file' hfile'
      · obtain rfl := List.mem_singleton.mp hfile'
        exact ⟨host', hlocated⟩
    · rw [handed_snoc, if_pos ⟨rfl, hurl, hname⟩, hhanded, List.map_append, hreply]
      rfl
    · rwa [hget]
  · -- Nothing is left of the url.
    have hreply : reply = "" := hreply
    refine h.snoc (e := ⟨i.request, reply⟩) hkeeps hu (fun _ => hreply) (fun hfirst => ?_)
      fun _ name hname => ?_
    · unfold Account
      rw [hfirst]
      refine ⟨hid, gone, hnodup, hgone, ?_, by rwa [hget]⟩
      rw [handed_snoc, if_neg fun hne => hne.2.2 hreply, hhanded]
    · obtain ⟨f, hf, rfl⟩ := List.mem_map.mp hname
      have hurl : u = i.request.fileurl := by
        cases hfirst : firstUrl i.request.id out with
        | none =>
            rw [hfirst] at hu
            exact hu.symm
        | some u' =>
            rw [hfirst] at hu
            obtain rfl : u' = u := hu
            rcases hone u' hfirst with heq | hnil
            · exact heq
            · rw [hnil] at hf
              cases hf
      obtain ⟨host', hhost'⟩ := List.exists_mem_of_ne_nil _ ((FileTree.files_nodup t _).2 f hf).2
      rw [hurl] at hrecorded hhanded
      rw [hhanded]
      exact List.mem_map_of_mem (hrecorded.replicas.exhausted hnil ⟨f.2, hf, hhost'⟩)

/-- A second url of an id gets nothing. -/
theorem Inv.second_url (h : Inv t out s) {i : FileInput} (hglobal : Global i)
    (hone : ¬ OneUrl t out i) (hstep : step t s i = some (s', o)) :
    ¬ FilesHandedOnce t (out ++ o) := by
  obtain ⟨⟨s₂, reply⟩, hanswer, heq⟩ := Option.map_eq_some_iff.mp hstep
  obtain ⟨rfl, rfl⟩ := Prod.mk.inj heq
  obtain ⟨s₁, hfind, -⟩ := Option.bind_eq_some_iff.mp hanswer
  obtain ⟨u, gone, hu, -, -, -, hrecorded⟩ := (h.account i.request.id).find
    (fun hnone => h.others _ _ (by rw [hnone]; nofun)) hfind
  unfold OneUrl at hone
  push Not at hone
  obtain ⟨u', hfirst, hurl, hfiles⟩ := hone
  rw [hfirst] at hu
  obtain rfl : u' = u := hu
  obtain ⟨all', -, ⟨heq, -⟩ | ⟨hreply, -, -⟩⟩ := answer_cases hfind hglobal hrecorded hanswer
  · exact absurd heq.symm hurl
  · intro hclaim
    have hreply : reply = "" := hreply
    have hall := (throughout_snoc.mp hclaim.reject).2 hreply
    have hnone : handed i.request.id i.request.fileurl out = [] := by
      refine h.others _ _ fun hsome => hurl ?_
      exact Option.some.inj (hfirst.symm.trans hsome)
    obtain ⟨f, hf⟩ := List.exists_mem_of_ne_nil _ hfiles
    have hmem := hall (t.base i.request.fileurl ++ f.1) (List.mem_map_of_mem hf)
    simp only [hnone] at hmem
    cases hmem

theorem Inv.filesHandedOnce (h : Inv t out s) : FilesHandedOnce t out := by
  have hspec : ∀ id url, (handed id url out).Nodup ∧ ∀ name ∈ handed id url out, name ∈ t.names url := by
    intro id url
    by_cases hfirst : firstUrl id out = some url
    · have haccount := h.account id
      unfold Account at haccount
      rw [hfirst] at haccount
      obtain ⟨-, gone, hnodup, hgone, hhanded, -⟩ := haccount
      rw [hhanded]
      refine ⟨hnodup.map fun x y heq => (String.append_right_inj _).mp heq, fun name hname => ?_⟩
      obtain ⟨file, hfile, rfl⟩ := List.mem_map.mp hname
      obtain ⟨host, hosts, hmem, -⟩ := hgone file hfile
      exact List.mem_map.mpr ⟨(file, hosts), hmem, rfl⟩
    · rw [h.others id url hfirst]
      exact ⟨List.nodup_nil, fun _ => nofun⟩
  exact ⟨fun id url => (hspec id url).1, fun id url => (hspec id url).2, h.reject⟩

/-- Before any load. -/
def start : HDFSFileAssignerML := ⟨∅, ∅⟩

theorem inv_start (t : FileTree) : Inv t [] start :=
  ⟨fun id => AList.notMem_empty id, fun _ _ _ => rfl, throughout_nil _⟩

/-- **Each file of each url is handed out once**, in every interleaving of global requests, as long
as the loads of an id have one url; the first request for a second url with files is told that there
are none. -/
theorem hands_out_files (t : FileTree) (inputs : List FileInput) (out : List FileReply)
    (s : HDFSFileAssignerML)
    (halong : Along (step t) (fun before _ i => Global i ∧ OneUrl t before i) [] start inputs)
    (hrun : run (step t) start inputs = some (s, out)) :
    FilesHandedOnce t out ∧ ∀ i s' o, Global i → step t s i = some (s', o) → ¬ OneUrl t out i →
      ¬ FilesHandedOnce t (out ++ o) := by
  have hinv : Inv t out s := by
    refine run_along (I := fun out s => Inv t out s) (fun hI hi hstep => ?_) (inv_start t) halong hrun
    exact hI.next hi.1 hi.2 hstep
  exact ⟨hinv.filesHandedOnce, fun i s' o hglobal hstep hone => hinv.second_url hglobal hone hstep⟩

/-- Two directories with one file each. -/
def twoDirectories : FileTree where
  pathInfo path :=
    if path = "/train" then
      some ⟨true, "/train", [("part-0", ["worker1", "worker2"])], by decide, by decide, by decide⟩
    else if path = "/test" then
      some ⟨true, "/test", [("part-0", ["worker2"])], by decide, by decide, by decide⟩
    else none

/-- Two ids with one url each. -/
theorem hands_out_files_twoIds : ∃ out s,
    handed 7 "/train" out = ["/train/part-0"] ∧ handed 8 "/test" out = ["/test/part-0"] ∧
      run (step twoDirectories) start [⟨⟨"worker1", "/train", 7, 1, ""⟩, 0⟩,
        ⟨⟨"worker1", "/test", 8, 1, ""⟩, 0⟩] = some (s, out) ∧ FilesHandedOnce twoDirectories out := by
  have hrun : (run (step twoDirectories) start [⟨⟨"worker1", "/train", 7, 1, ""⟩, 0⟩,
      ⟨⟨"worker1", "/test", 8, 1, ""⟩, 0⟩]).map
        (fun r => (handed 7 "/train" r.2, handed 8 "/test" r.2)) =
      some (["/train/part-0"], ["/test/part-0"]) := rfl
  obtain ⟨⟨s, out⟩, hrun, hhanded⟩ := Option.map_eq_some_iff.mp hrun
  obtain ⟨htrain, htest⟩ := Prod.mk.inj hhanded
  refine ⟨out, s, htrain, htest, hrun, (hands_out_files twoDirectories _ out s ?_ hrun).1⟩
  apply along_cons rfl ⟨.inl rfl, fun _ => nofun⟩
  apply along_cons rfl ⟨.inl rfl, fun _ => nofun⟩
  trivial

/-- **The second url of an id has no files**: its request is told so, and the file below it has not
been handed out. -/
theorem second_url_rejected : ¬ ∀ (t : FileTree) (inputs : List FileInput) (out : List FileReply)
    (s : HDFSFileAssignerML), Along (step t) (fun _ _ i => Global i) [] start inputs →
      run (step t) start inputs = some (s, out) → FilesHandedOnce t out := by
  intro hclaim
  have hrun : run (step twoDirectories) start [⟨⟨"worker1", "/train", 7, 1, ""⟩, 0⟩,
      ⟨⟨"worker1", "/test", 7, 1, ""⟩, 0⟩] =
      some (_, [⟨⟨"worker1", "/train", 7, 1, ""⟩, "/train/part-0"⟩,
        ⟨⟨"worker1", "/test", 7, 1, ""⟩, ""⟩]) := rfl
  have hreject := (hclaim twoDirectories _ _ _ ?_ hrun).reject
  · have hall := hreject [_] _ [] rfl rfl "/test/part-0" (by decide)
    exact absurd hall (by decide)
  · apply along_cons rfl (.inl rfl)
    apply along_cons rfl (.inl rfl)
    trivial

end HDFSFileAssignerML

end FlexPS.Input
