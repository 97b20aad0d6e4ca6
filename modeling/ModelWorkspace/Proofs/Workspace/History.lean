import ModelWorkspace.Proofs.Workspace.Order
import ModelWorkspace.Proofs.Workspace.Run

/-!
# What the index remembers

A workspace that follows a disk, being told of everything that happens to it, has the
packages and the model units of the disk.  Its index need not be the one that a workspace
gets which reads all files at once: entries in the index keep their identifiers, so of two
units that want a name, the one that is indexed first has it.

The index is the one that reading all files at once gives exactly when the names are in
the order of locations (`updates_sameElements_iff`), and they are whenever packages have
changed, and as long as units do not compete for names.
-/

namespace ModelWorkspace

/-- A disk, and what is called changed and deleted since the last update. -/
structure Change where
  disk : Disk
  changed : List Location
  deleted : List Location

namespace Change

/-- The update with a change. -/
def operation (c : Change) : Workspace.Operation :=
  .update c.disk c.changed c.deleted

/-- All files of a disk are called changed. -/
def ofDisk (disk : Disk) : Change :=
  ⟨disk, disk.files.keys, []⟩

/-- From one disk to the next, changes are told by a rule. -/
def Told (rule : Disk → Disk → List Location → List Location → Prop) :
    Disk → List Change → Prop
  | _, [] => True
  | before, c :: rest => rule before c.disk c.changed c.deleted ∧ Told rule c.disk rest

/-- The disk behind some changes. -/
def lastDisk : Disk → List Change → Disk
  | before, [] => before
  | _, c :: rest => lastDisk c.disk rest

variable {rule other : Disk → Disk → List Location → List Location → Prop} {before : Disk}
  {changes : List Change} {c : Change}

theorem Told.mono (himp : ∀ old new changed deleted, rule old new changed deleted →
    other old new changed deleted) (h : Told rule before changes) :
    Told other before changes := by
  induction changes generalizing before with
  | nil => exact trivial
  | cons c rest ih => exact ⟨himp _ _ _ _ h.1, ih h.2⟩

theorem told_concat : Told rule before (changes ++ [c]) ↔
    Told rule before changes ∧ rule (lastDisk before changes) c.disk c.changed c.deleted := by
  induction changes generalizing before with
  | nil => exact ⟨fun h => ⟨trivial, h.1⟩, fun h => ⟨h.2, trivial⟩⟩
  | cons first rest ih =>
      unfold Told lastDisk
      rw [and_assoc, ← ih]
      rfl

/-! ## Files written one at a time -/

/-- Files are written one after the other, and each one is called changed. -/
def edits (disk : Disk) : List (Location × String) → List Change
  | [] => []
  | (l, text) :: rest => ⟨disk.write l text, [l], []⟩ :: edits (disk.write l text) rest

theorem reported_write (disk : Disk) (l : Location) (text : String) :
    disk.Reported (disk.write l text) [l] [] where
  written := by
    intro f other hnew hold
    by_cases hf : f = l
    · rw [hf]
      exact covered_of_mem (List.mem_singleton_self l)
    · have hsame : (disk.write l text).files.get? f = disk.files.get? f :=
        LocationMap.get?_insert_of_ne disk.files text hf
      exact absurd (hsame.symm.trans hnew) hold
  removed := by
    intro f other hold hnew
    have hget : (disk.write l text).files.get? f =
        if f = l then some text else disk.files.get? f := LocationMap.get?_insert _ _ _ _
    rw [hget] at hnew
    split at hnew
    · cases hnew
    · rw [hold] at hnew
      cases hnew
  restored := by
    rintro f other - ⟨d, hd, -⟩
    exact absurd hd List.not_mem_nil

/-- Files that are gone from a disk have to be called deleted. -/
theorem announced_remove {disk : Disk} {l : Location} {changed deleted : List Location}
    (h : ∀ f text, disk.files.get? f = some text → f.isWithin l = true → f ∈ deleted) :
    disk.Announced (disk.remove l) changed deleted where
  written := by
    intro f text hnew hold
    have hget : (disk.files.get? f).filter (fun _ => !f.isWithin l) = some text :=
      (LocationMap.get?_filter disk.files _ f).symm.trans hnew
    exact absurd (Option.eq_some_of_filter_eq_some hget) hold
  removed := by
    intro f text hold hnew
    have hget : (disk.files.get? f).filter (fun _ => !f.isWithin l) = none :=
      (LocationMap.get?_filter disk.files _ f).symm.trans hnew
    rw [hold, Option.filter_eq_none_iff] at hget
    exact h f text hold (by simpa using hget text rfl)

theorem told_edits (disk : Disk) (files : List (Location × String)) :
    Told Disk.Reported disk (edits disk files) := by
  induction files generalizing disk with
  | nil => exact trivial
  | cons file rest ih => exact ⟨reported_write disk file.1 file.2, ih _⟩

/-- Files at places that are not below each other make plain disks. -/
theorem plain_edits {places : List Location} (hpath : ∀ l ∈ places, l.IsPath)
    (hapart : ∀ a ∈ places, ∀ b ∈ places, a.isBelow b = false) {disk : Disk}
    (haliases : disk.aliases = LocationMap.empty)
    (hunreadable : disk.unreadable = LocationMap.empty)
    (hdisk : ∀ f text, disk.files.get? f = some text → f ∈ places)
    {files : List (Location × String)} (hfiles : ∀ file ∈ files, file.1 ∈ places) :
    ∀ c ∈ edits disk files, c.disk.Plain := by
  induction files generalizing disk with
  | nil => exact fun c hc => absurd hc List.not_mem_nil
  | cons file rest ih =>
      obtain ⟨hfile, hrest⟩ := List.forall_mem_cons.mp hfiles
      have hnext : ∀ f text, (disk.write file.1 file.2).files.get? f = some text →
          f ∈ places := by
        intro f text htext
        have hget : (disk.write file.1 file.2).files.get? f =
            if f = file.1 then some file.2 else disk.files.get? f :=
          LocationMap.get?_insert _ _ _ _
        rw [hget] at htext
        split at htext
        · rename_i hf
          exact hf ▸ hfile
        · exact hdisk f text htext
      intro c hc
      rcases List.mem_cons.mp hc with rfl | hc
      · exact ⟨haliases, hunreadable, fun f text htext => hpath f (hnext f text htext),
          fun f text g other hf hg => hapart g (hnext g other hg) f (hnext f text hf)⟩
      · exact ih (show (disk.write file.1 file.2).aliases = _ from haliases)
          (show (disk.write file.1 file.2).unreadable = _ from hunreadable) hnext hrest c hc

/-- The same for a disk that is empty at first, with conditions that can be decided. -/
theorem plain_edits_empty {places : List Location} {files : List (Location × String)}
    (hpath : ∀ l ∈ places, l = Location.ofPath l.path)
    (hapart : ∀ a ∈ places, ∀ b ∈ places, a.isBelow b = false)
    (hfiles : ∀ file ∈ files, file.1 ∈ places) : ∀ c ∈ edits Disk.empty files, c.disk.Plain := by
  have hnone : ∀ f text, Disk.empty.files.get? f = some text → f ∈ places :=
    fun _ _ htext => nomatch htext
  exact plain_edits (fun l hl => ⟨l.path, hpath l hl⟩) hapart rfl rfl hnone hfiles

end Change

namespace Workspace

/-- The workspace behind updates with some changes, one after the other. -/
def updates (config : WorkspaceConfig) (changes : List Change) :
    Attempt Workspace :=
  (Workspace.ofConfig config).run (changes.map Change.operation)

variable {config : WorkspaceConfig} {ws : Workspace} {disk : Disk}

/-- What is computed from the result of updates holds of the workspace behind them. -/
theorem eq_of_updates {α : Type} {changes : List Change} {f : Workspace → α} {value : α}
    (hrun : updates config changes = .ok ws)
    (h : (updates config changes).toOption.map f = some value) : f ws = value := by
  rw [hrun] at h
  exact Option.some.inj h

/-- A workspace follows a disk. -/
structure Follows (config : WorkspaceConfig) (disk : Disk) (ws : Workspace) : Prop where
  settled : ws.Settled
  mirrors : ws.Mirrors disk
  config_eq : ws.config = config

theorem Follows.start (config : WorkspaceConfig) :
    Follows config Disk.empty (Workspace.ofConfig config) :=
  ⟨Settled.ofConfig config, Mirrors.ofConfig config, rfl⟩

/-- One update follows one change, and may put the names in order. -/
theorem Follows.update (h : Follows config disk ws)
    (hextension : ∀ m, config.isManifest m = true → m.extension.isSome = true) {c : Change}
    (hplain : c.disk.Plain) (hreported : disk.Reported c.disk c.changed c.deleted) :
    ∃ next, c.operation.apply ws = .ok next ∧ Follows config c.disk next ∧
      (next.packages ≠ ws.packages ∨ ws.units = LocationMap.empty → next.InOrder) := by
  obtain ⟨report, next, hupdate, hsettled, hmirrors, hconfig, b, hprepared, hpackages, hindex,
    hunits⟩ := h.mirrors.update h.settled hplain hreported (h.config_eq ▸ hextension)
  refine ⟨next, ?_, ⟨hsettled, hmirrors, hconfig.trans h.config_eq⟩, fun hall => ?_⟩
  · show (ws.update c.disk c.changed c.deleted).map (·.2) = .ok next
    rw [hupdate]
    rfl
  · exact hprepared.inOrder h.settled hall hpackages hindex hunits

/-- A run follows all changes. -/
theorem Follows.run (h : Follows config disk ws)
    (hextension : ∀ m, config.isManifest m = true → m.extension.isSome = true)
    {changes : List Change} (hplain : ∀ c ∈ changes, c.disk.Plain)
    (htold : Change.Told Disk.Reported disk changes) :
    ∃ last, ws.run (changes.map Change.operation) = .ok last ∧
      Follows config (Change.lastDisk disk changes) last := by
  induction changes generalizing disk ws with
  | nil => exact ⟨ws, rfl, h⟩
  | cons c rest ih =>
      obtain ⟨hfirst, hrest⟩ := List.forall_mem_cons.mp hplain
      obtain ⟨next, happly, hnext, -⟩ := h.update hextension hfirst htold.1
      obtain ⟨last, hrun, hlast⟩ := ih hnext hrest htold.2
      refine ⟨last, ?_, hlast⟩
      unfold Workspace.run at hrun ⊢
      rw [List.map_cons, List.foldlM_cons, happly]
      exact hrun

/-- All files of a disk are reported when the workspace is new. -/
theorem reported_ofDisk (disk : Disk) :
    Disk.empty.Reported disk (Change.ofDisk disk).changed (Change.ofDisk disk).deleted where
  written := fun _ text htext _ => covered_of_mem (LocationMap.mem_keys_iff.mpr ⟨text, htext⟩)
  removed := fun _ _ htext => nomatch htext
  restored := by
    rintro f text - ⟨l, hl, -⟩
    exact absurd hl List.not_mem_nil

/-- Workspaces that follow the same disk have the same packages and model units. -/
theorem Follows.same {other : Workspace} (h : Follows config disk ws)
    (h' : Follows config disk other) : other.packages = ws.packages ∧
      ws.ModelsWithin other := by
  have hconfig : other.config = ws.config := h'.config_eq.trans h.config_eq.symm
  have hpackages := h.mirrors.packages_eq h'.mirrors h.settled h'.settled hconfig
  exact ⟨hpackages, h.mirrors.modelsWithin h'.mirrors h.settled h'.settled hconfig hpackages⟩

/-- **What the index depends on.**  On plain disks whose changes are reported, the index
knows the same identifiers, for the same elements, as one that is made from all files at
once if and only if names are in the order of locations.  They are if packages have changed
in the last update, or if no unit has to give way to another one.  In order, the name that
a root declares belongs to this root unless a unit at a smaller location has it. -/
theorem updates_sameElements_iff
    (hextension : ∀ m, config.isManifest m = true → m.extension.isSome = true)
    (changes : List Change) (last : Change)
    (hplain : ∀ c ∈ changes ++ [last], c.disk.Plain)
    (htold : Change.Told Disk.Reported Disk.empty (changes ++ [last])) :
    ∃ before ws fresh, updates config changes = .ok before ∧
      updates config (changes ++ [last]) = .ok ws ∧
      updates config [Change.ofDisk last.disk] = .ok fresh ∧
      (ws.index.SameElements fresh.index ↔ ws.InOrder) ∧
      (ws.packages ≠ before.packages ∨ ws.Uncontested → ws.InOrder) ∧
      (ws.InOrder → ∀ l u root id p, ws.units.get? l = some u → u.isModel = true →
        u.document.root = some root → root.id = some id →
        ws.packages.packageFor? l = some p →
          ∃ e, ws.index.get? (Name.globalId p.id id) = some e ∧
            (e.location = l ∧ e.path = ElementPath.root ∨ e.location < l)) := by
  have hlast : last.disk.Plain := hplain last (List.mem_append_right _ List.mem_cons_self)
  obtain ⟨hbefore, hreported⟩ := Change.told_concat.mp htold
  obtain ⟨before, hrun, hfollows⟩ := (Follows.start config).run hextension
    (fun c hc => hplain c (List.mem_append_left _ hc)) hbefore
  obtain ⟨ws, happly, hws, hchanged⟩ := hfollows.update hextension hlast hreported
  obtain ⟨fresh, hread, hfresh, hall⟩ := (Follows.start config).update hextension
    (c := Change.ofDisk last.disk) hlast (reported_ofDisk last.disk)
  obtain ⟨hpackages, hwithin⟩ := hws.same hfresh
  obtain ⟨-, hwithin'⟩ := hfresh.same hws
  -- the fresh workspace indexes everything at once, so its names are in order
  have horder : fresh.InOrder := hall (Or.inr rfl)
  refine ⟨before, ws, fresh, hrun, ?_, ?_, ⟨fun hsame => ?_, fun hinorder => ?_⟩, ?_, ?_⟩
  · unfold updates
    unfold Workspace.run at hrun ⊢
    rw [List.map_append, List.foldlM_append, hrun, List.map_cons, List.map_nil]
    show List.foldlM Operation.apply before [last.operation] = _
    rw [List.foldlM_cons, happly]
    rfl
  · unfold updates Workspace.run
    rw [List.map_cons, List.map_nil, List.foldlM_cons, hread]
    rfl
  · exact hws.settled.inOrder_of_sameElements hfresh.settled hpackages hwithin horder hsame
  · exact hws.settled.sameElements_of_inOrder hfresh.settled hpackages hwithin hwithin'
      hinorder horder
  · rintro (hne | halone)
    · exact hchanged (Or.inl hne)
    · exact hws.settled.inOrder_of_uncontested halone
  · intro hinorder l u root id p hu hmodel hroot hid hp
    exact hws.settled.holder_of_inOrder hinorder hu hmodel hroot hid hp

end Workspace

namespace Histories

open Change

/-- A manifest at a location, for a package `p`. -/
def manifestAt (path : String) : Location × String :=
  (⟨path⟩, "\x7b\"name\": \"p\"\x7d")

/-- A model file with one entity. -/
def entityAt (path id : String) : Location × String :=
  (⟨path⟩, "entity:\n  id: " ++ id ++ "\n")

/-- The file that an identifier leads to behind some updates. -/
def fileOf (config : WorkspaceConfig) (changes : List Change) (id : String) :
    Option Location :=
  (Workspace.updates config changes).toOption.bind fun ws =>
    (ws.index.get? id).map (·.location)

/-- The file that it leads to if all files are read at once. -/
def fileAtOnce (config : WorkspaceConfig) (changes : List Change) (id : String) :
    Option Location :=
  fileOf config [ofDisk (lastDisk Disk.empty changes)] id

/-- A manifest and a model file. -/
def early : List Change :=
  edits Disk.empty [manifestAt "/p/package.json", entityAt "/p/a.cm" "X"]

/-- A model file at a larger location that declares the same name. -/
def late : Change :=
  ⟨(lastDisk Disk.empty early).write ⟨"/p/b.cm"⟩ (entityAt "/p/b.cm" "X").2, [⟨"/p/b.cm"⟩], []⟩

/-- Default settings ask for manifests that have an extension. -/
theorem extension_of_isManifest {m : Location}
    (h : WorkspaceConfig.isManifest {} m = true) : m.extension.isSome = true := by
  have hname : m.fileName = "package.json" := beq_iff_eq.mp h
  unfold Location.extension
  rw [hname]
  decide

theorem plain_early_late : ∀ c ∈ early ++ [late], c.disk.Plain := by
  let places : List Location := [⟨"/p/a.cm"⟩, ⟨"/p/b.cm"⟩, ⟨"/p/package.json"⟩]
  let files := [manifestAt "/p/package.json", entityAt "/p/a.cm" "X", entityAt "/p/b.cm" "X"]
  have hpath : ∀ l ∈ places, l = Location.ofPath l.path := by decide +kernel
  have hapart : ∀ a ∈ places, ∀ b ∈ places, a.isBelow b = false := by decide +kernel
  have hfiles : ∀ file ∈ files, file.1 ∈ places := by decide +kernel
  exact plain_edits_empty hpath hapart hfiles

open Workspace in
theorem updates_sameElements_iff_early_late :
    ∃ ws, updates {} (early ++ [late]) = .ok ws ∧ ws.InOrder ∧
      fileOf {} (early ++ [late]) "p.X" = some ⟨"/p/a.cm"⟩ ∧
      fileOf {} (early ++ [late]) "p.X1" = some ⟨"/p/b.cm"⟩ := by
  have htold : Told Disk.Reported Disk.empty (early ++ [late]) :=
    told_concat.mpr ⟨told_edits _ _, reported_write _ _ _⟩
  have hextension : ∀ m, WorkspaceConfig.isManifest {} m = true → m.extension.isSome = true :=
    fun _ => extension_of_isManifest
  obtain ⟨before, ws, fresh, -, hrun, hread, hiff, -⟩ :=
    updates_sameElements_iff hextension early late plain_early_late htold
  have hentries : (updates {} (early ++ [late])).toOption.map (·.index.entries) =
      (updates {} [ofDisk late.disk]).toOption.map (·.index.entries) := by
    decide +kernel
  rw [hrun, hread] at hentries
  have hsame : ws.index.entries = fresh.index.entries := Option.some.inj hentries
  refine ⟨ws, hrun, hiff.mp fun id => ?_, ?_⟩
  · unfold Index.get?
    rw [hsame]
  · decide +kernel

/-- The file at the smaller location comes second. -/
def collision : List Change :=
  edits Disk.empty
    [manifestAt "/p/package.json", entityAt "/p/b.cm" "X", entityAt "/p/a.cm" "X"]

/-- A file is there, and is called deleted. -/
def spurious : List Change :=
  let before := edits Disk.empty [manifestAt "/p/package.json", entityAt "/p/a.cm" "X"]
  before ++ [⟨lastDisk Disk.empty before, [], [⟨"/p/a.cm"⟩]⟩]

/-- A file below a file hides a change of the file. -/
def nested : List Change :=
  edits Disk.empty
    [manifestAt "/p/package.json", entityAt "/p/a.cm" "X", entityAt "/p/a.cm/b.cm" "Y",
      entityAt "/p/a.cm" "Z"]

/-- A manifest whose name looks like that of a directory is deleted. -/
def unnoticed : List Change :=
  let before := edits Disk.empty [manifestAt "/p/manifest", entityAt "/p/a.cm" "X"]
  before ++ [⟨(lastDisk Disk.empty before).remove ⟨"/p/manifest"⟩, [], [⟨"/p/manifest"⟩]⟩]

theorem told_spurious : Told Disk.Announced Disk.empty spurious := by
  refine told_concat.mpr ⟨(told_edits _ _).mono fun _ _ _ _ h => h.toAnnounced, ?_, ?_⟩
  · exact fun f text hnew hold => absurd hnew hold
  · intro f text hold hnew
    rw [show (lastDisk Disk.empty _).files.get? f = none from hnew] at hold
    cases hold

theorem told_unnoticed : Told Disk.Announced Disk.empty unnoticed := by
  refine told_concat.mpr ⟨(told_edits _ _).mono fun _ _ _ _ h => h.toAnnounced, ?_⟩
  refine announced_remove fun f text htext hwithin => ?_
  have hmem : f ∈ [(⟨"/p/a.cm"⟩ : Location), ⟨"/p/manifest"⟩] :=
    LocationMap.mem_keys_iff.mpr ⟨text, htext⟩
  simp only [List.mem_cons, List.not_mem_nil, or_false] at hmem
  rcases hmem with rfl | rfl
  · exact absurd hwithin (by decide)
  · exact List.mem_singleton_self _

/-- What an index knows may depend on the order in which files appeared, on what is called
deleted, on files below files and on manifests without an extension. -/
theorem index_remembers_history :
    (Told Disk.Announced Disk.empty collision ∧
      fileOf {} collision "p.X" = some ⟨"/p/b.cm"⟩ ∧
      fileAtOnce {} collision "p.X" = some ⟨"/p/a.cm"⟩) ∧
    (Told Disk.Announced Disk.empty spurious ∧
      fileOf {} spurious "p.X" = none ∧
      fileAtOnce {} spurious "p.X" = some ⟨"/p/a.cm"⟩) ∧
    (Told Disk.Announced Disk.empty nested ∧
      fileOf {} nested "p.Z" = none ∧
      fileAtOnce {} nested "p.Z" = some ⟨"/p/a.cm"⟩) ∧
    Told Disk.Announced Disk.empty unnoticed ∧
      fileOf { manifestName := "manifest" } unnoticed "p.X" = some ⟨"/p/a.cm"⟩ ∧
      fileAtOnce { manifestName := "manifest" } unnoticed "p.X" = none := by
  have hedits : ∀ files, Told Disk.Announced Disk.empty (edits Disk.empty files) :=
    fun files => (told_edits _ files).mono fun _ _ _ _ h => h.toAnnounced
  refine ⟨⟨hedits _, ?_⟩, ⟨told_spurious, ?_⟩, ⟨hedits _, ?_⟩, told_unnoticed, ?_⟩
  · decide +kernel
  · decide +kernel
  · decide +kernel
  · decide +kernel

end Histories
end ModelWorkspace
