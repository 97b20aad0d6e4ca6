import ModelWorkspace.Proofs.Workspace.Linking

/-!
# Runs of a workspace

A run is any sequence of updates and buffer operations, each on a disk of its own, with
requests to call off parses in between.  No operation fails, unless its disk cuts a location
within a character, and each one leads from a settled workspace to a settled one.  So after
every run the index names what is there, and links and diagnostics are those that linking and
validating from scratch would give.
-/

namespace ModelWorkspace

open Attempt

namespace Workspace

/-- What may be done to a workspace.  The disk is whatever it is at that moment. -/
inductive Operation where
  | update (disk : Disk) (changed deleted : List Location)
  | openBuffer (disk : Disk) (l : Location) (text : String)
  | changeBuffer (disk : Disk) (l : Location) (text : String)
  | closeBuffer (disk : Disk) (l : Location)
  | cancelNext (l : Location)

namespace Operation

/-- What an operation does, with the report of the update if there is one. -/
def perform (ws : Workspace) : Operation → Attempt (BuildReport × Workspace)
  | .update disk changed deleted => ws.update disk changed deleted
  | .openBuffer disk l text => ws.openBuffer disk l text
  | .changeBuffer disk l text => ws.changeBuffer disk l text
  | .closeBuffer disk l => ws.closeBuffer disk l
  | .cancelNext l => .ok ({}, ws.cancelNext l)

/-- The workspace behind an operation. -/
def apply (ws : Workspace) (operation : Operation) : Attempt Workspace :=
  (operation.perform ws).map (·.2)

/-- The texts that an operation brings along: that of a buffer, and those on the disk. -/
def texts : Operation → List String
  | .update disk _ _ => disk.files.values
  | .openBuffer disk _ text => text :: disk.files.values
  | .changeBuffer disk _ text => text :: disk.files.values
  | .closeBuffer disk _ => disk.files.values
  | .cancelNext _ => []

/-- The disk that an operation works on, with the locations that it calls changed. -/
def request? : Operation → Option (Disk × List Location)
  | .update disk changed _ => some (disk, changed)
  | .openBuffer disk l _ => some (disk, [l])
  | .changeBuffer disk l _ => some (disk, [l])
  | .closeBuffer disk l => some (disk, [l])
  | .cancelNext _ => none

/-- The disk of an operation cuts a location within a character. -/
def Splits (operation : Operation) (l : Location) : Prop :=
  ∃ disk given, operation.request? = some (disk, given) ∧ disk.Splits l

/-- The text that an operation puts into the buffer of a file. -/
def Puts (l : Location) (text : String) : Operation → Prop
  | .openBuffer disk given source => l = disk.canonical given ∧ text = source
  | .changeBuffer disk given source => l = disk.canonical given ∧ text = source
  | _ => False

variable {operation : Operation} {disk : Disk} {given : List Location} {l : Location}
  {text : String}

theorem mem_texts_of_puts (h : operation.Puts l text) : text ∈ operation.texts := by
  cases operation with
  | openBuffer disk given source => exact h.2 ▸ List.mem_cons_self
  | changeBuffer disk given source => exact h.2 ▸ List.mem_cons_self
  | update => exact h.elim
  | closeBuffer => exact h.elim
  | cancelNext => exact h.elim

theorem mem_map_canonical_of_puts (h : operation.Puts l text)
    (hrequest : operation.request? = some (disk, given)) : l ∈ given.map disk.canonical := by
  cases operation with
  | openBuffer other raw source =>
      cases hrequest
      exact h.1 ▸ List.mem_singleton_self _
  | changeBuffer other raw source =>
      cases hrequest
      exact h.1 ▸ List.mem_singleton_self _
  | update => exact h.elim
  | closeBuffer => exact h.elim
  | cancelNext => exact h.elim

theorem mem_texts_of_file (h : operation.request? = some (disk, given))
    (htext : disk.files.get? l = some text) : text ∈ operation.texts := by
  have hmem : text ∈ disk.files.values := LocationMap.mem_values_iff.mpr ⟨l, htext⟩
  cases operation with
  | update => cases h; exact hmem
  | openBuffer => cases h; exact List.mem_cons_of_mem _ hmem
  | changeBuffer => cases h; exact List.mem_cons_of_mem _ hmem
  | closeBuffer => cases h; exact hmem
  | cancelNext => cases h

end Operation

/-- The workspace behind some operations, one after the other. -/
def run (ws : Workspace) (operations : List Operation) : Attempt Workspace :=
  operations.foldlM Operation.apply ws

/-- One of the disks of some operations cuts a location within a character. -/
def SplitBy (operations : List Operation) (l : Location) : Prop :=
  ∃ operation ∈ operations, operation.Splits l

/-- Without aliases for the root no location is cut. -/
theorem not_splitBy {operations : List Operation}
    (h : ∀ operation ∈ operations, ∀ request ∈ operation.request?,
      request.1.aliases.get? ⟨"/"⟩ = none) (l : Location) : ¬ SplitBy operations l := by
  rintro ⟨operation, hoperation, disk, given, hrequest, hsplits⟩
  exact disk.not_splits (h operation hoperation _ hrequest) l hsplits

/-! ## One operation -/

/-- The build behind the manifests of an update. -/
theorem Settled.exists_loading {ws : Workspace} (h : ws.Settled) (disk : Disk)
    (changed deleted : List Location) :
    ∃ last models,
      Build.loadedManifests disk (takePending (ws.begun disk deleted)).2
        ((ws.begun disk deleted).requestedModels disk changed)
        ((ws.begun disk deleted).queue disk changed) = (last, models) ∧
      Build.Loading ws last ∧ ∀ l ∈ models.toList, ws.config.isManifest l = false := by
  have hbegun : Build.Loading ws (ws.begun disk deleted) :=
    (Build.Loading.start h).deleteAll _
  have htaken : Build.Loading ws (takePending (ws.begun disk deleted)).2 :=
    hbegun.congr rfl rfl rfl rfl rfl rfl rfl
  have hqueue : ∀ l, (l ∈ ((ws.begun disk deleted).queue disk changed).waiting ∨
      l ∈ ((ws.begun disk deleted).queue disk changed).unseen) →
      ws.config.isManifest l = true := by
    intro l hl
    rw [← hbegun.config_eq]
    exact Build.isManifest_of_mem_queue hl
  refine htaken.loadedManifests disk (fun l hl => ?_) hqueue
  rw [← hbegun.config_eq]
  exact (Build.mem_requestedModels.mp hl).2

theorem Settled.updated {ws : Workspace} (h : ws.Settled) (disk : Disk)
    (changed deleted : List Location) : (ws.updated disk changed deleted).workspace.Settled := by
  obtain ⟨last, models, hload, hlast, hmodels⟩ := h.exists_loading disk changed deleted
  rw [updated_eq hload]
  exact hlast.settled_finished h disk hmodels

/-- An update of a settled workspace leaves it settled. -/
theorem Settled.update {ws : Workspace} (h : ws.Settled) (disk : Disk)
    (changed deleted : List Location) :
    (ws.update disk changed deleted).GivesUnless disk.Splits fun (_, next) => next.Settled :=
  update_gives_of (h.updated disk changed deleted)

/-- An operation changes at most what is to be called off, or is an update with other buffers,
unless the location that it is given is cut within a character. -/
inductive Operation.Performs (ws : Workspace) (operation : Operation) :
    Attempt (BuildReport × Workspace) → Prop
  | idle (requests : LocationSet) :
      Performs ws operation (.ok ({}, { ws with cancelRequests := requests }))
  | cut (l : Location) (splits : operation.Splits l) :
      Performs ws operation (.error (.cut l))
  | update (buffers : Buffers) (disk : Disk) (changed deleted given : List Location)
      (requested : operation.request? = some (disk, given))
      (changed_given : ∀ l ∈ changed, l ∈ given ∨ l ∈ given.map disk.canonical)
      (buffered : ∀ l text, buffers.get? l = some text →
        ws.buffers.get? l = some text ∨ operation.Puts l text ∧ l ∈ changed) :
      Performs ws operation (Workspace.update { ws with buffers := buffers } disk changed deleted)

/-- The location of a buffer leads somewhere, or is cut. -/
theorem Operation.performs_resolved {ws : Workspace} {operation : Operation} {disk : Disk}
    {l : Location} (hrequest : operation.request? = some (disk, [l]))
    {f : Location → Attempt (BuildReport × Workspace)}
    (hperform : operation.Performs ws (f (disk.canonical l))) :
    operation.Performs ws (disk.resolve l >>= f) := by
  rcases disk.resolve_gives l with ⟨place, hplace, rfl⟩ | ⟨place, hplace, hcut⟩
  · rw [hplace]
    exact hperform
  · rw [hplace]
    exact .cut place ⟨disk, [l], hrequest, hcut⟩

theorem Operation.performs (ws : Workspace) (operation : Operation) :
    operation.Performs ws (operation.perform ws) := by
  have hgiven : ∀ {disk : Disk} {l other : Location}, other ∈ [disk.canonical l] →
      other ∈ [l] ∨ other ∈ [l].map disk.canonical := Or.inr
  -- the buffer with the new text is the only one that is new
  have hput : ∀ {disk : Disk} {l other : Location} {text found : String},
      (LocationMap.insert ws.buffers (disk.canonical l) text).get? other = some found →
        ws.buffers.get? other = some found ∨
          (other = disk.canonical l ∧ found = text) ∧ other ∈ [disk.canonical l] := by
    intro disk l other text found hget
    rcases LocationMap.get?_insert_eq_some_iff.mp hget with ⟨rfl, rfl⟩ | ⟨-, hold⟩
    · exact Or.inr ⟨⟨rfl, rfl⟩, List.mem_singleton_self _⟩
    · exact Or.inl hold
  cases operation with
  | update disk changed deleted =>
      exact .update ws.buffers disk changed deleted changed rfl (fun _ hl => Or.inl hl)
        (fun _ _ htext => Or.inl htext)
  | openBuffer disk l text =>
      refine performs_resolved rfl ?_
      exact .update (Buffers.openFile ws.buffers (disk.canonical l) text) disk _ _ [l] rfl
        (fun _ => hgiven) (fun _ _ => hput)
  | changeBuffer disk l text =>
      refine performs_resolved rfl ?_
      unfold Buffers.change
      split
      · rename_i heq
        split at heq
        · cases heq
          exact .update _ disk _ _ [l] rfl (fun _ => hgiven) (fun _ _ => hput)
        · cases heq
      · -- a file that is not open is not changed
        exact .idle ws.cancelRequests
  | closeBuffer disk l =>
      refine performs_resolved rfl ?_
      unfold Buffers.close
      split
      · rename_i heq
        obtain ⟨-, rfl⟩ := Prod.mk.inj heq
        exact .update _ disk _ _ [l] rfl (fun _ => hgiven)
          (fun _ _ hget => Or.inl (LocationMap.get?_erase_eq_some_iff.mp hget).2)
      · exact .idle ws.cancelRequests
  | cancelNext l => exact .idle (ws.cancelRequests.add l)

/-- What an operation gives, told by what its update gives. -/
theorem Operation.perform_gives {ws : Workspace} {operation : Operation}
    {P : BuildReport × Workspace → Prop}
    (hidle : ∀ requests, P ({}, { ws with cancelRequests := requests }))
    (hupdate : ∀ buffers disk changed deleted given, operation.request? = some (disk, given) →
      (∀ l ∈ changed, l ∈ given ∨ l ∈ given.map disk.canonical) →
      (∀ l text, buffers.get? l = some text →
        ws.buffers.get? l = some text ∨ operation.Puts l text ∧ l ∈ changed) →
      (Workspace.update { ws with buffers := buffers } disk changed deleted).GivesUnless
        disk.Splits P) :
    (operation.perform ws).GivesUnless operation.Splits P := by
  have hperforms := operation.performs ws
  generalize operation.perform ws = result at hperforms ⊢
  cases hperforms with
  | idle requests => exact .of_ok rfl (hidle requests)
  | cut l splits => exact .of_cut rfl splits
  | update buffers disk changed deleted given requested changed_given buffered =>
      exact (hupdate buffers disk changed deleted given requested changed_given buffered).weaken
        fun l hsplits => ⟨disk, given, requested, hsplits⟩

theorem Operation.apply_gives {ws : Workspace} {operation : Operation} {cut : Location → Prop}
    {Q : Workspace → Prop}
    (h : (operation.perform ws).GivesUnless cut fun result => Q result.2) :
    (operation.apply ws).GivesUnless cut Q :=
  h.map fun _ hresult => hresult

/-- Every operation leaves a settled workspace settled. -/
theorem Settled.apply {ws : Workspace} (h : ws.Settled) (operation : Operation) :
    (operation.apply ws).GivesUnless operation.Splits Settled :=
  Operation.apply_gives (Operation.perform_gives (fun _ => h.congr rfl rfl rfl rfl)
    fun buffers disk changed deleted _ _ _ _ => by
      -- buffers decide what is read, not whether the workspace is settled
      have hbuffers : Settled { ws with buffers := buffers } := h.congr rfl rfl rfl rfl
      exact hbuffers.update disk changed deleted)

/-! ## Whole runs -/

/-- If each operation keeps a property, so does the run. -/
theorem run_induction {ws : Workspace} {operations : List Operation} {Q : Workspace → Prop}
    (hstep : ∀ ws, ∀ operation ∈ operations, Q ws →
      (operation.apply ws).GivesUnless operation.Splits Q) (h : Q ws) :
    (ws.run operations).GivesUnless (SplitBy operations) Q := by
  induction operations generalizing ws with
  | nil => exact .of_ok rfl h
  | cons operation rest ih =>
      unfold Workspace.run
      rw [List.foldlM_cons]
      refine ((hstep ws operation List.mem_cons_self h).weaken
        fun l hl => ⟨operation, List.mem_cons_self, hl⟩).bind fun next hnext => ?_
      refine (ih (fun ws other hother => hstep ws other (List.mem_cons_of_mem _ hother))
        hnext).weaken ?_
      rintro l ⟨other, hother, hl⟩
      exact ⟨other, List.mem_cons_of_mem _ hother, hl⟩

/-- A run on a settled workspace leaves it settled. -/
theorem Settled.run {ws : Workspace} (h : ws.Settled) (operations : List Operation) :
    (ws.run operations).GivesUnless (SplitBy operations) Settled :=
  run_induction (fun _ operation _ hsettled => hsettled.apply operation) h

/-- **The index never dangles and is never stale.**  After every run, each entry of the
index stands for an element of its kind, at its path in a model unit that is tracked, and
names the package that owns this unit now. -/
theorem run_entries_resolve (config : WorkspaceConfig) (operations : List Operation) :
    ((Workspace.ofConfig config).run operations).GivesUnless (SplitBy operations) fun ws =>
      ∀ e ∈ ws.index.entries,
        ∃ u, ws.unit? e.location = some u ∧ u.isModel = true ∧
          (∃ element, ws.resolveElement e = some element ∧ element.kind = e.kind) ∧
          (ws.packageOf? e.location).map (·.id) = some e.package :=
  ((Settled.ofConfig config).run operations).mono fun _ hsettled _ he => hsettled.entry he

/-- The diagnostics of a manifest with a text: its fault if it is malformed, and the
problems with packages that are reported on it. -/
def manifestDiagnosticsOf (problems : List (Location × PackageProblem)) (l : Location)
    (text : String) : List Diagnostic :=
  (match Manifest.ofText text with
    | .error fault => [Manifest.faultDiagnostic text fault]
    | .ok _ => []) ++
    (problems.filter fun problem => problem.1 = l).map fun problem =>
      problem.2.diagnostic text

/-- A manifest that is tracked knows whether its text is well formed. -/
theorem manifestDiagnostics_eq {u : SourceUnit} {config : WorkspaceConfig} {l : Location}
    (h : u.WellFormed config l) (hmanifest : u.isManifest = true)
    (problems : List (Location × PackageProblem)) :
    Build.manifestDiagnostics problems u = manifestDiagnosticsOf problems l u.text := by
  unfold Build.manifestDiagnostics manifestDiagnosticsOf
  rw [h.manifest_eq hmanifest, h.location_eq]
  dsimp only
  congr 1
  · cases Manifest.ofText u.text <;> rfl
  · induction problems with
    | nil => rfl
    | cons problem rest ih =>
        by_cases hl : problem.1 = l
        · simp [hl, ih]
        · simp [hl, ih]

/-- **Linking again what may have changed is linking everything from scratch.**  After
every run, each model unit has the links that the linker finds for its tree in the index
and the packages of that moment, and the diagnostics of its document with these links;
each manifest has the diagnostics of its text and of the problems with the packages. -/
theorem run_links_from_scratch (config : WorkspaceConfig) (operations : List Operation) :
    ((Workspace.ofConfig config).run operations).GivesUnless (SplitBy operations) fun ws =>
      ∀ l u, ws.unit? l = some u →
        (u.isModel = true →
          u.links = (Linker.mk ws.index ws.packages ws.config.dependencyScope).linkDocument l
              u.document.root ∧
            u.diagnostics = validate u.document u.links.references) ∧
        (u.isManifest = true →
          u.diagnostics = manifestDiagnosticsOf ws.packages.problems l u.text) := by
  refine ((Settled.ofConfig config).run operations).mono fun ws hsettled l u hu =>
    ⟨fun hmodel => ?_, fun hmanifest => ?_⟩
  · have hlinked := hsettled.linked l u hu hmodel
    have hlocation := (hsettled.wellFormed l u hu).location_eq
    have hlinks : u.links = ws.linker.linkDocument l u.document.root := by
      rw [← hlocation]
      exact (congrArg SourceUnit.links hlinked).symm
    refine ⟨hlinks, ?_⟩
    rw [hlinks, ← hlocation]
    exact (congrArg SourceUnit.diagnostics hlinked).symm
  · rw [hsettled.diagnosed l u hu hmanifest]
    exact manifestDiagnostics_eq (hsettled.wellFormed l u hu) hmanifest _

end Workspace
end ModelWorkspace
