import Notbit.Network.Objects
import Notbit.Store.ObjectFiles

/-!
# Restarts — what is left of the accepted objects (`ntb-network.c`, `ntb-store.c`)

The network has the store thread save and delete files in the order in which objects are accepted and
dropped.  When the program ends the thread does all that is left to do, and when it is started again
the network takes the objects that a scan of the directory reports.
-/

open Bytes Stdio Relation Notbit.Proto Notbit.Store Notbit.Network

namespace Notbit.Daemon

/-! ## 1. The program and its files -/

/-- The cases of `store_thread_func` for the files of objects. -/
def handleFileTask (paths : Paths) : FileTask → Files → Files
  | .save hash blob => handleSaveBlob paths .success hash blob
  | .delete hash => handleDeleteObject paths .success hash

/-- The network, the files, and how many of the tasks for the files of objects are done. -/
structure Kept where
  nw : Network.State
  files : Files
  done : Nat

/-- What a report is taken for. -/
def reportedObject (report : BlobReport) : Object where
  type := (InvType.ofNat? report.type).getD .getpubkey
  hash := report.hash
  timestamp := report.timestamp

/-- `store_for_each_blob_cb` for all reports of a scan. -/
def loadBlobs (nw : Network.State) (reports : List BlobReport) : Network.State :=
  reports.foldl (fun nw report => nw.storeForEachBlobCb (reportedObject report).type
    (reportedObject report).hash (reportedObject report).timestamp) nw

/-- The program after it has been started again, with a new network. -/
def Kept.restarted (paths : Paths) (now : Int) (dir : List DirEntry) (nonce : Nat)
    (defaultAddrs : List Netaddress) (p : Kept) : Kept where
  nw := loadBlobs (Network.State.new nonce defaultAddrs) (forEachBlob now dir).reports
  files := leftFiles paths now dir p.files
  done := 0

/-- The program when it is started for the first time. -/
def Kept.first (nonce : Nat) (defaultAddrs : List Netaddress) (files : Files) : Kept where
  nw := Network.State.new nonce defaultAddrs
  files := files
  done := 0

/-- What can happen: something in the network, a task of the store thread, or a restart.  Before
the program ends the thread has done all tasks. -/
inductive Step (ssl : OpenSSL) (paths : Paths) : Kept → Kept → Prop
  | network {p : Kept} {nw' : Network.State} (e : Network.Event)
    (hload : ∀ type hash timestamp, e ≠ .loadBlob type hash timestamp)
    (h : Network.step ssl p.nw e = some nw') : Step ssl paths p { p with nw := nw' }
  | thread {p : Kept} (task : FileTask) (h : p.nw.fileTasks[p.done]? = some task) :
    Step ssl paths p { p with files := handleFileTask paths task p.files, done := p.done + 1 }
  | restart {p : Kept} (now : Int) (dir : List DirEntry) (nonce : Nat)
    (defaultAddrs : List Netaddress) (hdone : p.done = p.nw.fileTasks.length)
    (hlists : Lists paths p.files dir) (hcompleted : (forEachBlob now dir).completed = true) :
    Step ssl paths p (p.restarted paths now dir nonce defaultAddrs)

/-- The object is younger than its type's maximum age and the extra age. -/
def Unexpired (now : Int) (o : Object) : Prop :=
  now - o.timestamp < maxAgeForType o.type + extraAge

instance (now : Int) (o : Object) : Decidable (Unexpired now o) :=
  inferInstanceAs (Decidable (_ < _))

/-- What the scan should report of an object. -/
def blobReport (o : Object) : BlobReport where
  type := o.type.toNat
  hash := o.hash
  timestamp := o.timestamp

/-- The scan at the start comes to its end and reports each accepted object that is not too old, once,
and the objects that are accepted then are these. -/
structure Kept.Restores (paths : Paths) (now : Int) (dir : List DirEntry) (p : Kept) : Prop where
  completed : (forEachBlob now dir).completed = true
  reported : ∀ o ∈ p.nw.objects, Unexpired now o →
    (forEachBlob now dir).reports.filter (·.hash = o.hash) = [blobReport o]
  accepted : ∀ nonce defaultAddrs, (p.restarted paths now dir nonce defaultAddrs).nw.objects.Perm
    (p.nw.objects.filter fun o => Unexpired now o)

/-! ## 2. The files when all tasks are done -/

/-- The files after all tasks that are left. -/
def settled (paths : Paths) (tasks : List FileTask) (files : Files) : Files :=
  tasks.foldl (fun files task => handleFileTask paths task files) files

/-- There is a file for every accepted object, with its type and its time stamp, and what other files
there are in the directory of objects are too short to be scanned. -/
structure Saved (paths : Paths) (objects : List Object) (files : Files) : Prop where
  nodup : (objects.map (·.hash)).Nodup
  saved : ∀ o ∈ objects, ∃ blob : Blob, files (hashFilename paths o.hash) = some (objectFile blob) ∧
    blob.type = o.type ∧ objectTimestamp blob.data = some o.timestamp
  stray : ∀ name file, files (objectPath paths name) = some file → ∃ hash, name = hashName hash ∧
    (hash ∈ objects.map (·.hash) ∨ file.length < Store.headerSize)

section Saved

variable {ssl : OpenSSL} {paths : Paths} {objects : List Object} {files : Files}

theorem hashFilename_eq (hash : Hash) :
    hashFilename paths hash = objectPath paths (hashName hash) := rfl

theorem hashFilename_inj {hash hash' : Hash} :
    hashFilename paths hash = hashFilename paths hash' ↔ hash = hash' := by
  constructor
  · intro h
    exact hashName_injective (objectPath_injective h)
  · exact congrArg _

theorem length_hashName (hash : Hash) : (hashName hash).length = 64 := by
  obtain ⟨bytes, hlength⟩ := hash
  have hhex : ∀ bytes : List UInt8, (hexBytes bytes).length = 2 * bytes.length := by
    intro bytes
    induction bytes with
    | nil => rfl
    | cons b bytes ih =>
      rw [hexBytes, List.flatMap_cons, List.length_append]
      rw [hexBytes] at ih
      rw [ih, List.length_cons]
      simp only [List.length_cons, List.length_nil]
      omega
  rw [hashName, hhex, hlength]

-- No object is saved under the name of a temporary file.
theorem hashFilename_ne_tmp (hash hash' : Hash) :
    hashFilename paths hash ≠ hashFilename paths hash' ++ ascii ".tmp" := by
  intro h
  have hname : hashName hash = hashName hash' ++ ascii ".tmp" := by
    apply @objectPath_injective paths
    exact h.trans (List.append_assoc _ _ _)
  have hlength := congrArg List.length hname
  rw [List.length_append, length_hashName, length_hashName] at hlength
  exact absurd hlength (by decide)

theorem Saved.accept (h : Saved paths objects files) {blob : Blob} {o : Object}
    (hfresh : o.hash ∉ objects.map (·.hash)) (htype : o.type = blob.type)
    (htime : objectTimestamp blob.data = some o.timestamp) :
    Saved paths (o :: objects) (handleFileTask paths (.save o.hash blob) files) := by
  rw [handleFileTask, handleSaveBlob_success]
  refine ⟨List.nodup_cons.mpr ⟨hfresh, h.nodup⟩, fun o' ho' => ?_, fun name file hfile => ?_⟩
  · rcases List.mem_cons.mp ho' with rfl | ho'
    · exact ⟨blob, Function.update_self .., htype.symm, htime⟩
    · have hne : o'.hash ≠ o.hash := fun heq => hfresh (heq ▸ List.mem_map_of_mem ho')
      obtain ⟨blob', hblob', hrest⟩ := h.saved o' ho'
      refine ⟨blob', ?_, hrest⟩
      rw [Function.update_of_ne (fun heq => hne (hashFilename_inj.mp heq)),
        Function.update_of_ne (hashFilename_ne_tmp _ _), hblob']
  · by_cases htarget : objectPath paths name = hashFilename paths o.hash
    · exact ⟨o.hash, objectPath_injective htarget, .inl List.mem_cons_self⟩
    · rw [Function.update_of_ne htarget] at hfile
      have htmp : objectPath paths name ≠ hashFilename paths o.hash ++ ascii ".tmp" := by
        intro heq
        rw [heq, Function.update_self] at hfile
        cases hfile
      rw [Function.update_of_ne htmp] at hfile
      obtain ⟨hash, hname, hcase⟩ := h.stray name file hfile
      exact ⟨hash, hname, hcase.imp_left (List.mem_cons_of_mem _)⟩

theorem Saved.drop (h : Saved paths objects files) (hash : Hash) :
    Saved paths (objects.filter (·.hash ≠ hash)) (handleFileTask paths (.delete hash) files) := by
  rw [handleFileTask, handleDeleteObject_success]
  refine ⟨(h.nodup.sublist (List.filter_sublist.map _)), fun o ho => ?_, fun name file hfile => ?_⟩
  · obtain ⟨hmem, hne⟩ := List.mem_filter.mp ho
    obtain ⟨blob, hblob, hrest⟩ := h.saved o hmem
    refine ⟨blob, ?_, hrest⟩
    rw [Function.update_of_ne (fun heq => of_decide_eq_true hne (hashFilename_inj.mp heq)), hblob]
  · have hpath : objectPath paths name ≠ hashFilename paths hash := by
      intro heq
      rw [heq, Function.update_self] at hfile
      cases hfile
    rw [Function.update_of_ne hpath] at hfile
    obtain ⟨hash', rfl, hcase⟩ := h.stray name file hfile
    have hne : hash' ≠ hash := fun heq => hpath (by rw [heq]; rfl)
    refine ⟨hash', rfl, hcase.imp_left fun hmem => ?_⟩
    obtain ⟨o, ho, rfl⟩ := List.mem_map.mp hmem
    exact List.mem_map_of_mem (List.mem_filter.mpr ⟨ho, decide_eq_true hne⟩)

theorem settled_append (tasks more : List FileTask) :
    settled paths (tasks ++ more) files = settled paths more (settled paths tasks files) :=
  List.foldl_append

/-- What holds of the accepted objects and the tasks for their files, when the first of the tasks are
done. -/
structure Kept.Inv (paths : Paths) (p : Kept) : Prop where
  tracked : p.nw.Tracked []
  done_le : p.done ≤ p.nw.fileTasks.length
  saved : Saved paths p.nw.objects (settled paths (p.nw.fileTasks.drop p.done) p.files)

-- A change of the view.
theorem saved_append {v v' : List Object × List FileTask} {done : Nat} (hdone : done ≤ v.2.length)
    {tasks : List FileTask} (htasks : v'.2 = v.2 ++ tasks)
    (h : Saved paths v'.1 (settled paths tasks (settled paths (v.2.drop done) files))) :
    done ≤ v'.2.length ∧ Saved paths v'.1 (settled paths (v'.2.drop done) files) := by
  rw [htasks, List.length_append, List.drop_append_of_le_length hdone, settled_append]
  exact ⟨by omega, h⟩

theorem saved_accepted {blob : Blob} {v v' : List Object × List FileTask} {done : Nat}
    (hdone : done ≤ v.2.length) (h : Saved paths v.1 (settled paths (v.2.drop done) files))
    (haccepted : State.Accepted ssl blob v v') :
    done ≤ v'.2.length ∧ Saved paths v'.1 (settled paths (v'.2.drop done) files) := by
  obtain ⟨timestamp, htime, hfresh, rfl⟩ := haccepted
  refine saved_append (v := v) hdone rfl ?_
  exact Saved.accept (o := ⟨blob.type, doubleHash ssl blob.data, timestamp⟩) h hfresh rfl htime

theorem saved_dropped {v v' : List Object × List FileTask} {done : Nat} (hdone : done ≤ v.2.length)
    (h : Saved paths v.1 (settled paths (v.2.drop done) files))
    (hdropped : ReflTransGen State.Dropped v v') :
    done ≤ v'.2.length ∧ Saved paths v'.1 (settled paths (v'.2.drop done) files) := by
  induction hdropped with
  | refl => exact ⟨hdone, h⟩
  | tail _ hlast ih =>
    obtain ⟨hash, rfl⟩ := hlast
    exact saved_append ih.1 rfl (ih.2.drop hash)

theorem Kept.Inv.network {p : Kept} {nw' : Network.State} {e : Network.Event} (h : p.Inv paths)
    (hload : ∀ type hash timestamp, e ≠ .loadBlob type hash timestamp)
    (hs : Network.step ssl p.nw e = some nw') : Kept.Inv paths { p with nw := nw' } := by
  obtain ⟨htracked, hcase⟩ := h.tracked.step hs
  have hsaved : p.done ≤ nw'.view.2.length ∧
      Saved paths nw'.view.1 (settled paths (nw'.view.2.drop p.done) p.files) := by
    cases hcase with
    | same hadded hview =>
      rw [hview]
      exact ⟨h.done_le, h.saved⟩
    | accepted now blob flags hadded haccepts hview =>
      exact saved_accepted (v := p.nw.view) h.done_le h.saved hview
    | collected now monotonic hview => exact saved_dropped (v := p.nw.view) h.done_le h.saved hview
    | loaded type hash timestamp hnone hview => exact absurd rfl (hload type hash timestamp)
  exact ⟨htracked, hsaved.1, hsaved.2⟩

theorem Kept.Inv.thread {p : Kept} {task : FileTask} (h : p.Inv paths)
    (htask : p.nw.fileTasks[p.done]? = some task) :
    Kept.Inv paths
      { p with files := handleFileTask paths task p.files, done := p.done + 1 } := by
  have hlt : p.done < p.nw.fileTasks.length := by
    by_contra hge
    rw [List.getElem?_eq_none (Nat.le_of_not_lt hge)] at htask
    cases htask
  have hget : p.nw.fileTasks[p.done] = task := by
    rw [List.getElem?_eq_getElem hlt] at htask
    exact Option.some.inj htask
  have hsaved := h.saved
  rw [List.drop_eq_getElem_cons hlt, hget] at hsaved
  exact ⟨h.tracked, hlt, hsaved⟩

/-! ## 3. The scan -/

/-- The file of the object is long enough to be scanned. -/
def Whole (paths : Paths) (files : Files) (o : Object) : Prop :=
  ∃ file, files (hashFilename paths o.hash) = some file ∧ Store.headerSize ≤ file.length

variable {now : Int} {dir : List DirEntry} {entry : DirEntry}

/-- What a scan does with an entry: it passes it over, or it is the file of an object that is too old
or not. -/
inductive ScanCase (paths : Paths) (objects : List Object) (files : Files) (now : Int)
    (entry : DirEntry) : Prop
  | passed (h : processFile now entry = .skipped)
    (hshort : ∀ o ∈ objects, entry.name = hashName o.hash → ¬ Whole paths files o)
  | old (o : Object) (ho : o ∈ objects) (hname : entry.name = hashName o.hash)
    (hexpired : ¬ Unexpired now o) (h : processFile now entry = .deleted)
  | reported (o : Object) (ho : o ∈ objects) (hname : entry.name = hashName o.hash)
    (hwhole : Whole paths files o) (hunexpired : Unexpired now o) (found : Found)
    (h : processFile now entry = .reported found) (hfound : forEachBlobCb found = some (blobReport o))

theorem length_of_hashNamed {name ending : List UInt8} (h : HashNamed name ending) :
    name.length = 64 + ending.length := by
  obtain ⟨digits, rfl, hlength, -⟩ := h
  rw [List.length_append, hlength]

theorem readHash_name (hash : Hash) : readHash 32 (hashName hash) = some (hash.val, []) := by
  have hread := readHash_hashName hash []
  rwa [List.append_nil] at hread

-- A whole file with the type and the time stamp of an object.
theorem processObject_objectFile {blob : Blob} {o : Object} (htype : blob.type = o.type)
    (htime : objectTimestamp blob.data = some o.timestamp) :
    processObject now entry o.hash (objectFile blob) =
      if Unexpired now o then
        .reported { type := o.type.toNat, hash := o.hash, timestamp := o.timestamp
                    file := objectFile blob, rereads := entry.rereads }
      else .deleted := by
  have hmax : maxAge? o.type.toNat = some (maxAgeForType o.type) := by
    rw [maxAge?, InvType.ofNat?_toNat, Option.map_some]
  rw [processObject, type_objectFile, htype, hmax, stampAt_objectFile,
    ← objectTimestamp_eq_stampAt htime]
  by_cases hunexpired : Unexpired now o
  · have hyoung : ¬ now - o.timestamp ≥ maxAgeForType o.type + extraAge := not_le.mpr hunexpired
    rw [if_pos hunexpired]
    exact if_neg hyoung
  · have hold : now - o.timestamp ≥ maxAgeForType o.type + extraAge := not_lt.mp hunexpired
    rw [if_neg hunexpired]
    exact if_pos hold

theorem Saved.scanCase (h : Saved paths objects files) (hlists : Lists paths files dir)
    (hentry : entry ∈ dir) : ScanCase paths objects files now entry := by
  by_cases hdots : entry.name ∈ dots
  · have hshort : entry.name.length < 64 := by
      have hall : ∀ name ∈ dots, name.length < 64 := by decide
      exact hall _ hdots
    have hne : ∀ ending, ¬ HashNamed entry.name ending := by
      intro ending hnamed
      rw [length_of_hashNamed hnamed] at hshort
      omega
    rcases processFile_cases now entry with ⟨hskip, -⟩ | ⟨htmp, -⟩ | ⟨hash, file, hread, -⟩
    · refine .passed hskip fun o ho hname => ?_
      rw [hname, length_hashName] at hshort
      omega
    · exact absurd htmp (hne _)
    · exact absurd (HashNamed.of_readHash hread) (hne _)
  · have hcontent := hlists.content entry hentry hdots
    have hsome : files (objectPath paths entry.name) ≠ none := by
      rcases (hlists.listed entry.name).mp (List.mem_map_of_mem hentry) with hmem | hsome
      · exact absurd hmem hdots
      · exact hsome
    obtain ⟨file, hfile⟩ := Option.ne_none_iff_exists'.mp hsome
    rw [hfile] at hcontent
    obtain ⟨hash, hname, hcase⟩ := h.stray _ _ hfile
    have hread := readHash_name hash
    rw [← hname] at hread
    have hpath : hashFilename paths hash = objectPath paths entry.name := by rw [hname]; rfl
    rcases processFile_cases now entry with ⟨hskip, hnot⟩ | ⟨htmp, -⟩ |
      ⟨hash', file', hread', hcontent', hlength, hobject⟩
    · refine .passed hskip fun o ho hname' hwhole => hnot ⟨HashNamed.of_readHash hread, file, ?_⟩
      obtain ⟨file', hfile', hlength⟩ := hwhole
      rw [hashFilename_eq, ← hname', hfile] at hfile'
      cases hfile'
      exact ⟨hcontent, hlength⟩
    · have hlength := length_of_hashNamed htmp
      rw [hname, length_hashName] at hlength
      exact absurd hlength (by decide)
    · rw [hread] at hread'
      rw [hcontent] at hcontent'
      cases hcontent'
      obtain rfl : hash = hash' := Subtype.ext (Prod.ext_iff.mp (Option.some.inj hread')).1
      have hmem : hash ∈ objects.map (·.hash) := hcase.resolve_right (by omega)
      obtain ⟨o, ho, rfl⟩ := List.mem_map.mp hmem
      obtain ⟨blob, hblob, htype, htime⟩ := h.saved o ho
      rw [hpath, hfile] at hblob
      cases hblob
      have hwhole : Whole paths files o := ⟨_, hpath ▸ hfile, hlength⟩
      rw [processObject_objectFile htype htime] at hobject
      by_cases hunexpired : Unexpired now o
      · rw [if_pos hunexpired] at hobject
        exact .reported o ho hname hwhole hunexpired _ hobject rfl
      · rw [if_neg hunexpired] at hobject
        exact .old o ho hname hunexpired hobject

/-- No file makes the assertion fail. -/
theorem forEachBlob_eq (hcases : ∀ entry ∈ dir, ScanCase paths objects files now entry) :
    forEachBlob now dir = {
      outcomes := dir.map fun entry => (processFile now entry).passTo forEachBlobCb
      completed := true } := by
  induction dir with
  | nil => rfl
  | cons entry dir ih =>
    rw [List.forall_mem_cons] at hcases
    have htyped : entry.Typed := by
      by_contra hnot
      have hfails := (@processFile_assertionFailure now entry).mpr hnot
      cases hcases.1 with
      | passed h => rw [h] at hfails; cases hfails
      | old o ho hname hexpired h => rw [h] at hfails; cases hfails
      | reported o ho hname hwhole hunexpired found h => rw [h] at hfails; cases hfails
    have hrest := ih hcases.2
    rw [forEachBlob] at hrest ⊢
    rw [forEachBlobInternal_cons htyped, hrest]
    rfl

theorem reports_eq (hcases : ∀ entry ∈ dir, ScanCase paths objects files now entry) :
    (forEachBlob now dir).reports =
      dir.filterMap fun entry => ((processFile now entry).passTo forEachBlobCb).report? := by
  rw [forEachBlob_eq hcases, Scan.reports, List.filterMap_map]
  rfl

-- The names tell the objects apart.
theorem Saved.eq_of_hash (h : Saved paths objects files) {o o' : Object} (ho : o ∈ objects)
    (ho' : o' ∈ objects) (heq : o.hash = o'.hash) : o = o' :=
  List.inj_on_of_nodup_map h.nodup ho ho' heq

theorem Saved.mem_reports (h : Saved paths objects files) (hlists : Lists paths files dir)
    {report : BlobReport} :
    report ∈ (forEachBlob now dir).reports ↔
      ∃ o ∈ objects, Whole paths files o ∧ Unexpired now o ∧ report = blobReport o := by
  have hcases : ∀ entry ∈ dir, ScanCase paths objects files now entry :=
    fun entry hentry => h.scanCase hlists hentry
  rw [reports_eq hcases, List.mem_filterMap]
  constructor
  · rintro ⟨entry, hentry, hreport⟩
    cases hcases entry hentry with
    | passed hskip hshort =>
      rw [hskip] at hreport
      cases hreport
    | old o ho hname hexpired hdeleted =>
      rw [hdeleted] at hreport
      cases hreport
    | reported o ho hname hwhole hunexpired found hfile hfound =>
      rw [hfile, Outcome.passTo, hfound] at hreport
      cases hreport
      exact ⟨o, ho, hwhole, hunexpired, rfl⟩
  · rintro ⟨o, ho, hwhole, hunexpired, rfl⟩
    obtain ⟨file, hfile, hlength⟩ := hwhole
    have hlisted := (hlists.listed (hashName o.hash)).mpr
      (.inr (by rw [← hashFilename_eq, hfile]; simp))
    obtain ⟨entry, hentry, hname⟩ := List.mem_map.mp hlisted
    refine ⟨entry, hentry, ?_⟩
    cases hcases entry hentry with
    | passed hskip hshort => exact absurd ⟨file, hfile, hlength⟩ (hshort o ho hname)
    | old o' ho' hname' hexpired hdeleted =>
      obtain rfl := h.eq_of_hash ho ho' (hashName_injective (hname.symm.trans hname'))
      exact absurd hunexpired hexpired
    | reported o' ho' hname' hwhole' hunexpired' found hfile' hfound =>
      obtain rfl := h.eq_of_hash ho ho' (hashName_injective (hname.symm.trans hname'))
      rw [hfile', Outcome.passTo, hfound]
      rfl

/-- No hash is reported twice: the names of a directory are different. -/
theorem Saved.nodup_reports (h : Saved paths objects files) (hlists : Lists paths files dir) :
    ((forEachBlob now dir).reports.map (·.hash)).Nodup := by
  have hcases : ∀ entry ∈ dir, ScanCase paths objects files now entry :=
    fun entry hentry => h.scanCase hlists hentry
  have hsublist : ((forEachBlob now dir).reports.map fun report => hashName report.hash).Sublist
      (dir.map (·.name)) := by
    rw [reports_eq hcases]
    clear hlists
    induction dir with
    | nil => exact List.Sublist.slnil
    | cons entry dir ih =>
      rw [List.forall_mem_cons] at hcases
      have hrest := ih hcases.2
      rw [List.map_cons]
      cases hcases.1 with
      | passed hskip hshort =>
        rw [List.filterMap_cons_none (by rw [hskip]; rfl)]
        exact hrest.cons _
      | old o ho hname hexpired hdeleted =>
        rw [List.filterMap_cons_none (by rw [hdeleted]; rfl)]
        exact hrest.cons _
      | reported o ho hname hwhole hunexpired found hfile hfound =>
        rw [List.filterMap_cons_some (by rw [hfile, Outcome.passTo, hfound]; rfl), List.map_cons,
          hname]
        exact hrest.cons_cons _
  have hnames := hlists.nodup.sublist hsublist
  have hcompose : ((forEachBlob now dir).reports.map fun report => hashName report.hash) =
      ((forEachBlob now dir).reports.map (·.hash)).map hashName := by
    rw [List.map_map]
    rfl
  rw [hcompose] at hnames
  exact hnames.of_map _

/-! ## 4. Loading -/

/-- All inventories in the table are accepted. -/
structure Fresh (nw : Network.State) : Prop where
  tracked : nw.Tracked []
  accepted : ∀ v ∈ nw.inventoryHash.values, ∃ a ∈ nw.acceptedInventories, v = .inventory a

variable {nw : Network.State}

theorem Fresh.hashGet_eq_none (h : Fresh nw) {hash : Hash}
    (hnew : hash ∉ nw.objects.map (·.hash)) : nw.hashGet hash = none := by
  cases hget : nw.hashGet hash with
  | none => rfl
  | some a =>
    have hhash := h.tracked.hash_of_hashGet hget
    obtain ⟨v, hv, hslice⟩ := Option.map_eq_some_iff.mp hget
    obtain ⟨b, hb, rfl⟩ := h.accepted v (Chains.mem_flatten_iff.mpr ⟨_, List.mem_of_find?_eq_some hv⟩)
    cases hslice
    refine absurd (List.mem_map.mpr ⟨(nw.heap b).object, ?_, hhash⟩) hnew
    exact List.mem_map_of_mem hb

theorem Fresh.storeForEachBlobCb (h : Fresh nw) (type : InvType) {hash : Hash} (timestamp : Int)
    (hnew : hash ∉ nw.objects.map (·.hash)) :
    Fresh (nw.storeForEachBlobCb type hash timestamp) ∧
      (nw.storeForEachBlobCb type hash timestamp).view =
        ({ type, hash, timestamp } :: nw.objects, nw.fileTasks) := by
  have hget := h.hashGet_eq_none hnew
  obtain ⟨htracked, hview, -⟩ := h.tracked.storeForEachBlobCb type hash timestamp
  refine ⟨⟨htracked, fun v hv => ?_⟩, hview hget⟩
  unfold State.storeForEachBlobCb at hv ⊢
  rw [hget] at hv ⊢
  simp only at hv ⊢
  have htable : nw.alloc.2.inventoryHash = nw.inventoryHash :=
    congrArg (·.inventoryHash) (State.alloc_frame nw)
  have hlist : nw.alloc.2.acceptedInventories = nw.acceptedInventories :=
    congrArg (·.acceptedInventories) (State.alloc_frame nw)
  have hsize : 0 < nw.alloc.2.inventoryHash.size := htable ▸ h.tracked.size_pos
  rcases HashTable.mem_values_set hsize hv with rfl | hold
  · exact ⟨nw.alloc.1, List.mem_cons_self, rfl⟩
  · obtain ⟨a, ha, rfl⟩ := h.accepted v (htable ▸ hold)
    refine ⟨a, List.mem_cons_of_mem _ ?_, rfl⟩
    show a ∈ nw.alloc.2.acceptedInventories
    rw [hlist]
    exact ha

theorem Fresh.loadBlobs (h : Fresh nw) {reports : List BlobReport}
    (hnodup : (reports.map (·.hash)).Nodup)
    (hnew : ∀ report ∈ reports, report.hash ∉ nw.objects.map (·.hash)) :
    Fresh (loadBlobs nw reports) ∧ (loadBlobs nw reports).view =
      ((reports.map reportedObject).reverse ++ nw.objects, nw.fileTasks) := by
  induction reports generalizing nw with
  | nil => exact ⟨h, rfl⟩
  | cons report reports ih =>
    rw [List.map_cons, List.nodup_cons] at hnodup
    rw [List.forall_mem_cons] at hnew
    obtain ⟨hfresh, hview⟩ := h.storeForEachBlobCb (reportedObject report).type
      (reportedObject report).timestamp hnew.1
    have hobjects : (nw.storeForEachBlobCb (reportedObject report).type report.hash
        (reportedObject report).timestamp).objects = reportedObject report :: nw.objects :=
      congrArg Prod.fst hview
    have htasks : (nw.storeForEachBlobCb (reportedObject report).type report.hash
        (reportedObject report).timestamp).fileTasks = nw.fileTasks := congrArg Prod.snd hview
    obtain ⟨hfresh', hview'⟩ := ih hfresh hnodup.2 fun report' hmem => by
      rw [hobjects, List.map_cons]
      refine List.not_mem_cons_of_ne_of_not_mem (fun heq => ?_) (hnew.2 report' hmem)
      have hmapped := List.mem_map_of_mem (f := (·.hash)) hmem
      rw [heq] at hmapped
      exact hnodup.1 hmapped
    refine ⟨hfresh', hview'.trans ?_⟩
    rw [hobjects, htasks, List.map_cons, List.reverse_cons, List.append_assoc]
    rfl

theorem fresh_new (nonce : Nat) (defaultAddrs : List Netaddress) :
    Fresh (Network.State.new nonce defaultAddrs) where
  tracked := State.tracked_new nonce defaultAddrs
  accepted := by simp [Network.State.new, HashTable.values, HashTable.new]

theorem reportedObject_blobReport (o : Object) : reportedObject (blobReport o) = o := by
  rw [reportedObject, blobReport]
  simp only [InvType.ofNat?_toNat, Option.getD_some]

/-! ## 5. Runs -/

variable {p : Kept}

-- When all tasks are done the files are as they are to be.
theorem Kept.Inv.settled (h : p.Inv paths) (hdone : p.done = p.nw.fileTasks.length) :
    Saved paths p.nw.objects p.files := by
  have hsaved := h.saved
  rw [hdone, List.drop_length] at hsaved
  exact hsaved

theorem Saved.objects_restarted (h : Saved paths p.nw.objects p.files)
    (hlists : Lists paths p.files dir) (nonce : Nat) (defaultAddrs : List Netaddress) :
    Fresh (p.restarted paths now dir nonce defaultAddrs).nw ∧
      (p.restarted paths now dir nonce defaultAddrs).nw.view =
        (((forEachBlob now dir).reports.map reportedObject).reverse, []) := by
  obtain ⟨hfresh, hview⟩ := (fresh_new nonce defaultAddrs).loadBlobs (h.nodup_reports hlists)
    (by simp [Network.State.new, State.objects])
  refine ⟨hfresh, hview.trans ?_⟩
  rw [show (Network.State.new nonce defaultAddrs).objects = [] from rfl, List.append_nil]
  rfl

theorem Saved.mem_reportedObjects (h : Saved paths objects files) (hlists : Lists paths files dir)
    {o : Object} : o ∈ (forEachBlob now dir).reports.map reportedObject ↔
      o ∈ objects ∧ Whole paths files o ∧ Unexpired now o := by
  rw [List.mem_map]
  constructor
  · rintro ⟨report, hreport, rfl⟩
    obtain ⟨o, ho, hwhole, hunexpired, rfl⟩ := (h.mem_reports hlists).mp hreport
    rw [reportedObject_blobReport]
    exact ⟨ho, hwhole, hunexpired⟩
  · rintro ⟨ho, hwhole, hunexpired⟩
    exact ⟨blobReport o, (h.mem_reports hlists).mpr ⟨o, ho, hwhole, hunexpired, rfl⟩,
      reportedObject_blobReport o⟩

/-- The files that are left are those of the objects that are loaded, and short ones. -/
theorem Saved.left (h : Saved paths objects files) (hlists : Lists paths files dir) :
    Saved paths ((forEachBlob now dir).reports.map reportedObject).reverse
      (leftFiles paths now dir files) := by
  have hmem : ∀ o, o ∈ ((forEachBlob now dir).reports.map reportedObject).reverse ↔
      o ∈ objects ∧ Whole paths files o ∧ Unexpired now o := fun o => by
    rw [List.mem_reverse, h.mem_reportedObjects hlists]
  have hhashes : (((forEachBlob now dir).reports.map reportedObject).reverse.map (·.hash)) =
      ((forEachBlob now dir).reports.map (·.hash)).reverse := by
    rw [List.map_reverse, List.map_map]
    rfl
  refine ⟨?_, fun o ho => ?_, fun name file hfile => ?_⟩
  · rw [hhashes, List.nodup_reverse]
    exact h.nodup_reports hlists
  · obtain ⟨ho, -, hunexpired⟩ := (hmem o).mp ho
    obtain ⟨blob, hblob, hrest⟩ := h.saved o ho
    refine ⟨blob, ?_, hrest⟩
    rw [leftFiles_eq, if_neg, hblob]
    rintro ⟨entry, hentry, hdeleted, hpath⟩
    have hname : entry.name = hashName o.hash := (objectPath_injective hpath).symm
    cases @Saved.scanCase _ _ _ now _ entry h hlists hentry with
    | passed hskip hshort =>
      rw [hskip] at hdeleted
      cases hdeleted
    | old o' ho' hname' hexpired hdeleted' =>
      obtain rfl := h.eq_of_hash ho ho' (hashName_injective (hname.symm.trans hname'))
      exact hexpired hunexpired
    | reported o' ho' hname' hwhole hunexpired' found hfound hreport =>
      rw [hfound] at hdeleted
      cases hdeleted
  · rw [leftFiles_eq] at hfile
    split_ifs at hfile with hdeleted
    obtain ⟨hash, rfl, hcase⟩ := h.stray name file hfile
    refine ⟨hash, rfl, ?_⟩
    rcases hcase with hhash | hshort
    · by_cases hlength : Store.headerSize ≤ file.length
      · -- the scan has come to this file and reported it
        obtain ⟨o, ho, rfl⟩ := List.mem_map.mp hhash
        have hwhole : Whole paths files o := ⟨file, hfile, hlength⟩
        have hlisted := (hlists.listed (hashName o.hash)).mpr (.inr (by rw [hfile]; simp))
        obtain ⟨entry, hentry, hname⟩ := List.mem_map.mp hlisted
        cases @Saved.scanCase _ _ _ now _ entry h hlists hentry with
        | passed hskip hshort => exact absurd hwhole (hshort o ho hname)
        | old o' ho' hname' hexpired hdeleted' =>
          exact absurd ⟨entry, hentry, hdeleted', by rw [hname]⟩ hdeleted
        | reported o' ho' hname' hwhole' hunexpired found hfound hreport =>
          obtain rfl := h.eq_of_hash ho ho' (hashName_injective (hname.symm.trans hname'))
          exact .inl (List.mem_map_of_mem ((hmem o).mpr ⟨ho, hwhole, hunexpired⟩))
      · exact .inr (not_le.mp hlength)
    · exact .inr hshort

theorem Kept.Inv.step {p' : Kept} (h : p.Inv paths) (hs : Step ssl paths p p') : p'.Inv paths := by
  cases hs with
  | network e hload hs => exact h.network hload hs
  | thread task htask => exact h.thread htask
  | restart now dir nonce defaultAddrs hdone hlists hcompleted =>
    have hsettled := h.settled hdone
    obtain ⟨hfresh, hview⟩ := @Saved.objects_restarted paths now dir p hsettled hlists nonce
      defaultAddrs
    have hobjects : (p.restarted paths now dir nonce defaultAddrs).nw.objects =
        ((forEachBlob now dir).reports.map reportedObject).reverse := congrArg Prod.fst hview
    have htasks : (p.restarted paths now dir nonce defaultAddrs).nw.fileTasks = [] :=
      congrArg Prod.snd hview
    refine ⟨hfresh.tracked, Nat.zero_le _, ?_⟩
    rw [htasks, hobjects]
    exact hsettled.left hlists

theorem Kept.Inv.first (hempty : ∀ name, files (objectPath paths name) = none) (nonce : Nat)
    (defaultAddrs : List Netaddress) : (Kept.first nonce defaultAddrs files).Inv paths := by
  refine ⟨State.tracked_new nonce defaultAddrs, Nat.zero_le _, List.nodup_nil, ?_, ?_⟩
  · intro o ho
    cases ho
  · intro name file hfile
    have hnone : files (objectPath paths name) = some file := hfile
    rw [hempty name] at hnone
    cases hnone

theorem Kept.Inv.runs {p' : Kept} (h : p.Inv paths) (hruns : ReflTransGen (Step ssl paths) p p') :
    p'.Inv paths := by
  induction hruns with
  | refl => exact h
  | tail _ hlast ih => exact ih.step hlast

/-- The length of the file is that of the object and its type. -/
theorem Saved.whole_iff (h : Saved paths objects files) {o : Object} (ho : o ∈ objects) :
    Whole paths files o ↔ ∀ blob : Blob, files (hashFilename paths o.hash) = some (objectFile blob) →
      16 ≤ blob.data.length := by
  constructor
  · rintro ⟨file, hfile, hlength⟩ blob hblob
    rw [hfile] at hblob
    cases hblob
    rw [length_objectFile] at hlength
    change 20 ≤ 4 + blob.data.length at hlength
    omega
  · intro hall
    obtain ⟨blob, hblob, -⟩ := h.saved o ho
    refine ⟨_, hblob, ?_⟩
    have hlength := hall blob hblob
    rw [length_objectFile]
    show 20 ≤ 4 + blob.data.length
    omega

theorem Saved.filter_reports (h : Saved paths objects files) (hlists : Lists paths files dir)
    {o : Object} (ho : o ∈ objects) (hwhole : Whole paths files o) (hunexpired : Unexpired now o) :
    (forEachBlob now dir).reports.filter (·.hash = o.hash) = [blobReport o] := by
  have hnodup : (forEachBlob now dir).reports.Nodup := (h.nodup_reports hlists).of_map _
  apply List.perm_singleton.mp
  rw [List.perm_ext_iff_of_nodup (hnodup.filter _) (List.nodup_singleton _)]
  intro report
  rw [List.mem_filter, List.mem_singleton, h.mem_reports hlists]
  constructor
  · rintro ⟨⟨o', ho', -, -, rfl⟩, hhash⟩
    rw [h.eq_of_hash ho' ho (of_decide_eq_true hhash)]
  · rintro rfl
    exact ⟨⟨o, ho, hwhole, hunexpired, rfl⟩, decide_eq_true rfl⟩

/-- Whatever has happened since the program was started for the first time, at a restart it gets its
accepted objects back exactly if each of them that is not too old has at least 16 bytes. -/
theorem restart_restores_iff {nonce : Nat} {defaultAddrs : List Netaddress}
    (hempty : ∀ name, files (objectPath paths name) = none)
    (hruns : ReflTransGen (Step ssl paths) (Kept.first nonce defaultAddrs files) p)
    (hdone : p.done = p.nw.fileTasks.length) (hlists : Lists paths p.files dir) :
    p.Restores paths now dir ↔ ∀ o ∈ p.nw.objects, Unexpired now o → ∀ blob : Blob,
      p.files (hashFilename paths o.hash) = some (objectFile blob) → 16 ≤ blob.data.length := by
  have hsaved := ((Kept.Inv.first hempty nonce defaultAddrs).runs hruns).settled hdone
  constructor
  · intro hrestores o ho hunexpired
    rw [← hsaved.whole_iff ho]
    have hfilter := hrestores.reported o ho hunexpired
    have hmem : blobReport o ∈ (forEachBlob now dir).reports :=
      (List.mem_filter.mp (hfilter ▸ List.mem_singleton_self (blobReport o))).1
    obtain ⟨o', ho', hwhole, -, heq⟩ := (hsaved.mem_reports hlists).mp hmem
    rw [hsaved.eq_of_hash ho ho' (congrArg BlobReport.hash heq)]
    exact hwhole
  · intro hall
    have hwhole : ∀ o ∈ p.nw.objects, Unexpired now o → Whole paths p.files o :=
      fun o ho hunexpired => (hsaved.whole_iff ho).mpr (hall o ho hunexpired)
    refine ⟨?_, fun o ho hunexpired => ?_, fun nonce defaultAddrs => ?_⟩
    · rw [forEachBlob_eq fun entry hentry => hsaved.scanCase hlists hentry]
    · exact hsaved.filter_reports hlists ho (hwhole o ho hunexpired) hunexpired
    · obtain ⟨hfresh, hview⟩ := hsaved.objects_restarted hlists nonce defaultAddrs
      have hobjects : (p.restarted paths now dir nonce defaultAddrs).nw.objects =
          ((forEachBlob now dir).reports.map reportedObject).reverse := congrArg Prod.fst hview
      have hnew := (@Saved.left paths p.nw.objects p.files now dir hsaved hlists).nodup
      rw [hobjects, List.perm_ext_iff_of_nodup (hnew.of_map _)
        ((hsaved.nodup.of_map _).filter _)]
      intro o
      rw [List.mem_reverse, hsaved.mem_reportedObjects hlists, List.mem_filter, decide_eq_true_eq]
      constructor
      · rintro ⟨ho, -, hunexpired⟩
        exact ⟨ho, hunexpired⟩
      · rintro ⟨ho, hunexpired⟩
        exact ⟨ho, hwhole o ho hunexpired, hunexpired⟩

/-- Events of the network alone. -/
theorem steps_of_run {nw : Network.State} {files : Files} {done : Nat} {events : List Network.Event}
    (hload : ∀ e ∈ events, ∀ type hash timestamp, e ≠ .loadBlob type hash timestamp) :
    ReflTransGen (Step ssl paths) { nw, files, done }
      { nw := Runs.run (Network.step ssl) nw events, files, done } := by
  induction events generalizing nw with
  | nil => exact .refl
  | cons e events ih =>
    rw [List.forall_mem_cons] at hload
    rw [Runs.run_cons]
    cases hs : Network.step ssl nw e with
    | none =>
      rw [Runs.next_of_none hs]
      exact ih hload.2
    | some nw' =>
      rw [Runs.next_of_some hs]
      exact .head (.network (p := { nw, files, done }) e hload.1 hs) (ih hload.2)

end Saved

/-! ## 6. An object that is lost -/

/-- A message of nothing but its nonce, a time stamp of 32 bits and the number of its stream. -/
def shortObject : Blob where
  type := .msg
  data := add64 0 ++ add32 1400000000 ++ addVarInt 1

/-- A peer connects and sends it. -/
def shortDelivery : List Network.Event :=
  [.addListenAddress, .accept 0, .object 0 1400000000 shortObject]

/-- Directories for an example. -/
def examplePaths : Paths where
  directory := ascii "/notbit/"
  maildir := ascii "/maildir/"

def shortHash : Hash := doubleHash .additive shortObject.data

/-- The program when the object has been saved. -/
def shortSaved : Kept where
  nw := Runs.run (Network.step .additive) (Network.State.new 0 []) shortDelivery
  files := handleFileTask examplePaths (.save shortHash shortObject) fun _ => none
  done := 1

/-- The directory with its file. -/
def shortDirectory : List DirEntry :=
  [{ name := ascii ".", content := none, rereads := false },
    { name := ascii "..", content := none, rereads := false },
    { name := hashName shortHash, content := some (objectFile shortObject), rereads := true }]

theorem shortSaved_reached : ReflTransGen (Step .additive examplePaths)
    (Kept.first 0 [] fun _ => none) shortSaved := by
  have hnetwork := @steps_of_run .additive examplePaths (Network.State.new 0 []) (fun _ => none) 0
    shortDelivery (by simp [shortDelivery])
  refine hnetwork.tail (.thread (.save shortHash shortObject) ?_)
  decide +kernel

theorem shortSaved_lists : Lists examplePaths shortSaved.files shortDirectory := by
  have hfiles : shortSaved.files = Function.update (Function.update (fun _ => none)
      (hashFilename examplePaths shortHash ++ ascii ".tmp") none)
      (hashFilename examplePaths shortHash) (some (objectFile shortObject)) :=
    handleSaveBlob_success shortHash shortObject
  have hnone : Function.update (fun _ => none : Files)
      (hashFilename examplePaths shortHash ++ ascii ".tmp") none = fun _ => none :=
    Function.update_eq_self _ _
  rw [hnone] at hfiles
  have hname : ∀ name, shortSaved.files (objectPath examplePaths name) =
      if name = hashName shortHash then some (objectFile shortObject) else none := by
    intro name
    rw [hfiles]
    by_cases h : name = hashName shortHash
    · rw [if_pos h, h]
      exact Function.update_self ..
    · rw [if_neg h]
      exact Function.update_of_ne (fun heq => h (objectPath_injective heq)) _ _
  refine ⟨by decide +kernel, fun name => ?_, fun entry hentry hdots => ?_⟩
  · rw [hname]
    have hmap : shortDirectory.map (·.name) = dots ++ [hashName shortHash] := rfl
    rw [hmap, List.mem_append, List.mem_singleton]
    simp
  · rw [hname]
    rcases List.mem_cons.mp hentry with rfl | hentry
    · exact absurd (by decide) hdots
    · rcases List.mem_cons.mp hentry with rfl | hentry
      · exact absurd (by decide) hdots
      · rw [List.mem_singleton.mp hentry]
        exact (if_pos rfl).symm

/-- It is accepted and saved, and the scan passes over its file. -/
theorem shortSaved_not_restored :
    ReflTransGen (Step .additive examplePaths) (Kept.first 0 [] fun _ => none) shortSaved ∧
      shortSaved.done = shortSaved.nw.fileTasks.length ∧
      Lists examplePaths shortSaved.files shortDirectory ∧
      ¬ shortSaved.Restores examplePaths 1400000001 shortDirectory := by
  refine ⟨shortSaved_reached, by decide +kernel, shortSaved_lists, fun hrestores => ?_⟩
  have hmem : { type := .msg, hash := shortHash, timestamp := 1400000000 } ∈
      shortSaved.nw.objects := by decide +kernel
  have hreports : (forEachBlob 1400000001 shortDirectory).reports = [] := by decide +kernel
  have hreported := hrestores.reported _ hmem (by decide)
  rw [hreports] at hreported
  cases hreported

/-- What becomes of it at a restart a second later. -/
theorem shortSaved_restores_iff :
    shortSaved.Restores examplePaths 1400000001 shortDirectory ↔
      ∀ o ∈ shortSaved.nw.objects, Unexpired 1400000001 o → ∀ blob : Blob,
        shortSaved.files (hashFilename examplePaths o.hash) = some (objectFile blob) →
          16 ≤ blob.data.length :=
  restart_restores_iff (fun _ => rfl) shortSaved_reached (by decide +kernel) shortSaved_lists

end Notbit.Daemon
