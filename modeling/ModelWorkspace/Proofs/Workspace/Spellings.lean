import ModelWorkspace.Proofs.Workspace.AsRead
import ModelWorkspace.Proofs.Workspace.OpenBuffers

/-!
# One unit for all spellings

Two locations spell one place when they meet, as far as aliases are followed from each
(`Disk.SamePlace`).  If both lead to real locations they lead to the same one, so an operation
does the same whichever of them it is given (`Operation.Respells.perform_eq`).

An update stores files where what it is given leads, and where files on the disk lead.  So if
these places are real, nothing is ever kept at a location that is not, neither a unit, nor a
buffer, nor an interrupted parse (`Settled.perform_vacant`), and no place has two units.
-/

namespace ModelWorkspace

open Attempt

namespace Disk

variable {disk other : Disk} {a b l : Location}

/-- Aliases lead two locations to the same one, each after some steps. -/
def SamePlace (disk : Disk) (a b : Location) : Prop :=
  ∃ m n, disk.canonical^[m] a = disk.canonical^[n] b

theorem SamePlace.eq_of_isReal (h : disk.SamePlace a b) (ha : disk.IsReal a)
    (hb : disk.IsReal b) : a = b := by
  obtain ⟨m, n, hmeet⟩ := h
  rwa [Function.iterate_fixed ha.canonical_eq, Function.iterate_fixed hb.canonical_eq] at hmeet

/-- Spellings of one place that lead to real locations lead to the same one. -/
theorem SamePlace.resolve_eq (h : disk.SamePlace a b) (ha : disk.IsReal (disk.canonical a))
    (hb : disk.IsReal (disk.canonical b)) : disk.resolve a = disk.resolve b := by
  obtain ⟨m, n, hmeet⟩ := h
  have hsame : disk.canonical a = disk.canonical b := by
    refine SamePlace.eq_of_isReal ⟨m, n, ?_⟩ ha hb
    rw [← Function.iterate_succ_apply, ← Function.iterate_succ_apply,
      Function.iterate_succ_apply', Function.iterate_succ_apply', hmeet]
  rw [ha.resolve_eq, hb.resolve_eq, hsame]

/-- Where locations lead depends on the aliases only. -/
theorem resolve_congr (h : other.aliases = disk.aliases) : other.resolve = disk.resolve := by
  funext l
  unfold resolve
  rw [h]

end Disk

namespace Workspace

variable {ws : Workspace} {disk : Disk} {changed deleted : List Location} {l : Location}

/-! ## Other spellings -/

/-- The disk that an operation works on, with all locations that it names. -/
def Operation.named? : Operation → Option (Disk × List Location)
  | .update disk changed deleted => some (disk, changed ++ deleted)
  | .openBuffer disk l _ | .changeBuffer disk l _ | .closeBuffer disk l => some (disk, [l])
  | .cancelNext _ => none

/-- With the given aliases, each file and each location that an operation names leads to a real
one. -/
def Operation.Arrives (aliases : LocationMap Location) (operation : Operation) : Prop :=
  ∀ disk named, operation.named? = some (disk, named) →
    disk.aliases = aliases ∧ ∀ l ∈ disk.files.keys ++ named, disk.IsReal (disk.canonical l)

/-- The same operation with other spellings of its locations. -/
inductive Operation.Respells : Operation → Operation → Prop
  | update {disk : Disk} {changed changed' deleted deleted' : List Location}
      (hchanged : List.Forall₂ disk.SamePlace changed changed')
      (hdeleted : List.Forall₂ disk.SamePlace deleted deleted') :
      Respells (.update disk changed deleted) (.update disk changed' deleted')
  | openBuffer {disk : Disk} {l l' : Location} (text : String) (hl : disk.SamePlace l l') :
      Respells (.openBuffer disk l text) (.openBuffer disk l' text)
  | changeBuffer {disk : Disk} {l l' : Location} (text : String) (hl : disk.SamePlace l l') :
      Respells (.changeBuffer disk l text) (.changeBuffer disk l' text)
  | closeBuffer {disk : Disk} {l l' : Location} (hl : disk.SamePlace l l') :
      Respells (.closeBuffer disk l) (.closeBuffer disk l')

/-- An update asks only where the locations that it is given lead. -/
theorem update_eq_of_resolve_eq (ws : Workspace) {disk : Disk}
    {changed changed' deleted deleted' : List Location}
    (hchanged : changed.map disk.resolve = changed'.map disk.resolve)
    (hdeleted : deleted.map disk.resolve = deleted'.map disk.resolve) :
    ws.update disk changed deleted = ws.update disk changed' deleted' := by
  -- the workspace whose files are asked for is the one behind the deletions
  have hfiles : ∀ other : Workspace,
      other.changedFiles disk changed = other.changedFiles disk changed' := by
    intro other
    let files := fun place : Attempt Location => do
      let l ← place
      if ← disk.isDirectory l then other.scan disk l
      else return if other.config.isTracked l then [l] else []
    have hmap : ∀ ls : List Location,
        ls.mapM (other.filesAt disk) = (ls.map disk.resolve).mapM files := by
      intro ls
      rw [List.mapM_map]
      rfl
    unfold changedFiles
    rw [hmap, hmap, hchanged]
  have hbegun : ws.beginBuild disk deleted = ws.beginBuild disk deleted' := by
    let delete := fun (b : Build) (place : Attempt Location) => place.map b.delete
    have hfold : ∀ ls : List Location,
        ws.beginBuild disk ls = (ls.map disk.resolve).foldlM delete { workspace := ws } :=
      fun ls => List.foldlM_map.symm
    rw [hfold, hfold, hdeleted]
  unfold update runBuild
  rw [hbegun]
  simp only [hfiles]

theorem map_resolve_eq {ls ls' : List Location} (h : List.Forall₂ disk.SamePlace ls ls')
    (hls : ∀ l ∈ ls, disk.IsReal (disk.canonical l))
    (hls' : ∀ l ∈ ls', disk.IsReal (disk.canonical l)) :
    ls.map disk.resolve = ls'.map disk.resolve := by
  induction h with
  | nil => rfl
  | cons hfirst _ ih =>
      obtain ⟨hl, hls⟩ := List.forall_mem_cons.mp hls
      obtain ⟨hl', hls'⟩ := List.forall_mem_cons.mp hls'
      rw [List.map_cons, List.map_cons, hfirst.resolve_eq hl hl', ih hls hls']

theorem Operation.Arrives.isReal_of_named {operation : Operation} {aliases : LocationMap Location}
    (h : operation.Arrives aliases) (hnamed : operation.named? = some (disk, [l])) :
    disk.IsReal (disk.canonical l) :=
  (h disk [l] hnamed).2 l (List.mem_append_right _ (List.mem_singleton_self l))

/-- An operation does the same with other spellings of its locations, if they all lead to real
ones. -/
theorem Operation.Respells.perform_eq {operation other : Operation}
    {aliases : LocationMap Location} (h : operation.Respells other)
    (harrives : operation.Arrives aliases) (hother : other.Arrives aliases) (ws : Workspace) :
    operation.perform ws = other.perform ws := by
  cases h with
  | @update disk changed changed' deleted deleted' hchanged hdeleted =>
      have hreal := (harrives disk _ rfl).2
      have hreal' := (hother disk _ rfl).2
      simp only [List.forall_mem_append] at hreal hreal'
      exact ws.update_eq_of_resolve_eq (map_resolve_eq hchanged hreal.2.1 hreal'.2.1)
        (map_resolve_eq hdeleted hreal.2.2 hreal'.2.2)
  | openBuffer text hl =>
      show ws.openBuffer _ _ text = ws.openBuffer _ _ text
      unfold Workspace.openBuffer
      rw [hl.resolve_eq (harrives.isReal_of_named rfl) (hother.isReal_of_named rfl)]
  | changeBuffer text hl =>
      show ws.changeBuffer _ _ text = ws.changeBuffer _ _ text
      unfold Workspace.changeBuffer
      rw [hl.resolve_eq (harrives.isReal_of_named rfl) (hother.isReal_of_named rfl)]
  | closeBuffer hl =>
      show ws.closeBuffer _ _ = ws.closeBuffer _ _
      unfold Workspace.closeBuffer
      rw [hl.resolve_eq (harrives.isReal_of_named rfl) (hother.isReal_of_named rfl)]

/-! ## Where nothing is kept -/

/-- Nothing is kept at a location. -/
structure Vacant (ws : Workspace) (l : Location) : Prop where
  unit : ws.units.get? l = none
  buffer : ws.buffers.get? l = none
  pending : ws.pending.get? l = none

theorem isLocal_vacant (l : Location) : Build.IsLocal l fun b => b.workspace.Vacant l where
  congr := fun hagree hb => ⟨hagree.unit_eq_none_iff.mpr hb.unit, hagree.buffer.trans hb.buffer,
    hagree.pending.trans hb.pending⟩
  removeUnit := fun {b} _ =>
    let ⟨hunit, hbuffer, hpending⟩ := Build.get?_removeUnit b l
    ⟨hunit, hbuffer, hpending⟩

/-- An update keeps nothing where nothing leads. -/
theorem LoadsFiles.vacant {last : Build} {models : LocationSet}
    (h : ws.LoadsFiles disk changed deleted last models) (hsettled : ws.Settled)
    (hvacant : ws.Vacant l) (hnever : l ∉ (disk.files.keys ++ changed).map disk.canonical) :
    (last.finished disk models).workspace.Vacant l := by
  have hlocal := isLocal_vacant l
  have hunscanned : l ∉ disk.files.keys.map disk.canonical := fun hl => hnever (by
    rw [List.map_append]
    exact List.mem_append_left _ hl)
  have hunasked : l ∉ ((ws.begun disk deleted).requested disk changed).toList := by
    rw [hsettled.mem_requested_iff, not_or]
    refine ⟨fun hl => hnever (Disk.mem_of_mem_reached hl), fun hl => ?_⟩
    obtain ⟨value, hvalue⟩ := LocationMap.mem_keys_iff.mp (mem_pending_of_begun hl)
    rw [hvacant.pending] at hvalue
    cases hvalue
  -- what a manifest brings in is scanned, so files on the disk lead there
  have hmodels : l ∉ models.toList := by
    refine Build.loadedManifests_invariant (W := fun _ => True)
      (P := fun _ models _ => l ∉ models.toList) (fun _ _ _ _ _ hb => hb) ?_ (fun _ _ => trivial)
      h.loaded fun hl => hunasked (Build.mem_requestedModels.mp hl).1
    intro b models m waiting _ hnot hmem
    rcases LocationSet.mem_toList_addAll.mp hmem with hnew | hold
    · obtain ⟨_, hscan⟩ := Build.exists_scan_of_mem_newModels hnew
      exact hunscanned (Disk.mem_of_mem_scan hscan)
    · exact hnot hold
  have hbegun : (ws.begun disk deleted).workspace.Vacant l :=
    hlocal.deleteAll (b := { workspace := ws }) hvacant _
  have hloaded : last.workspace.Vacant l := by
    refine hlocal.loadedManifests (b := (takePending (ws.begun disk deleted)).2)
      ⟨hbegun.unit, hbegun.buffer, rfl⟩ h.loaded fun hqueue => ?_
    rcases hqueue with hwaiting | hunseen
    · exact absurd (List.mem_of_mem_filter (List.mem_reverse.mp hwaiting)) hunasked
    · exact absurd (LocationSet.mem_toList_ofList.mp (List.mem_of_mem_filter hunseen)) hunscanned
  rcases Build.outcome_or_agreeAt last disk models l with ⟨⟨hmem, -⟩, -⟩ | ⟨-, hagree⟩
  · exact absurd hmem hmodels
  · exact hlocal.congr hagree (hlocal.behindManifests hloaded)

theorem Operation.named_of_request {operation : Operation} {given : List Location}
    (h : operation.request? = some (disk, given)) :
    ∃ named, operation.named? = some (disk, named) ∧ given ⊆ named := by
  cases operation with
  | update other changed deleted =>
      cases h
      exact ⟨_, rfl, List.subset_append_left _ _⟩
  | openBuffer other l text =>
      cases h
      exact ⟨_, rfl, List.Subset.refl _⟩
  | changeBuffer other l text =>
      cases h
      exact ⟨_, rfl, List.Subset.refl _⟩
  | closeBuffer other l =>
      cases h
      exact ⟨_, rfl, List.Subset.refl _⟩
  | cancelNext l => cases h

/-- What spellings of real locations lead to is real, and leads to itself. -/
theorem Operation.Arrives.led_isReal {operation : Operation} {aliases : LocationMap Location}
    {given changed : List Location} (h : operation.Arrives aliases)
    (hrequest : operation.request? = some (disk, given))
    (hchanged : ∀ l ∈ changed, l ∈ given ∨ l ∈ given.map disk.canonical) :
    ∀ l ∈ (disk.files.keys ++ changed).map disk.canonical, disk.IsReal l := by
  obtain ⟨named, hnamed, hsub⟩ := Operation.named_of_request hrequest
  have hreal : ∀ c ∈ disk.files.keys ++ given, disk.IsReal (disk.canonical c) :=
    fun c hc => (h disk named hnamed).2 c ((List.mem_append.mp hc).elim
      (List.mem_append_left _) fun hc => List.mem_append_right _ (hsub hc))
  intro l hl
  obtain ⟨c, hc, rfl⟩ := List.mem_map.mp hl
  rcases List.mem_append.mp hc with hfile | hc
  · exact hreal c (List.mem_append_left _ hfile)
  rcases hchanged c hc with hc | hc
  · exact hreal c (List.mem_append_right _ hc)
  · obtain ⟨first, hfirst, rfl⟩ := List.mem_map.mp hc
    have hself := hreal first (List.mem_append_right _ hfirst)
    rwa [hself.canonical_eq]

/-- An operation that names nothing but spellings of real locations keeps nothing elsewhere. -/
theorem Settled.perform_vacant (h : ws.Settled) (hadmitted : ws.Admitted) {operation : Operation}
    (harrives : operation.Arrives disk.aliases) (hvacant : ∀ l, ¬ disk.IsReal l → ws.Vacant l) :
    (operation.perform ws).GivesUnless operation.Splits fun (_, next) =>
      ∀ l, ¬ disk.IsReal l → next.Vacant l := by
  refine Operation.perform_gives (fun _ l hl => ?_) ?_
  · exact ⟨(hvacant l hl).unit, (hvacant l hl).buffer, (hvacant l hl).pending⟩
  intro buffers disk' changed deleted given hrequest hchanged hbuffers
  obtain ⟨named, hnamed, -⟩ := Operation.named_of_request hrequest
  have hstart : Settled { ws with buffers := buffers } := h.congr rfl rfl rfl rfl
  have hsame : Admitted { ws with buffers := buffers } := hadmitted.congr rfl rfl rfl
  obtain ⟨last, models, hloads⟩ := hstart.exists_loadsFiles hsame disk' changed deleted
  refine update_gives_of fun l hl => ?_
  rw [updated_eq hloads.loaded]
  have hl' : ¬ disk'.IsReal l := by
    unfold Disk.IsReal
    rw [Disk.resolve_congr (harrives disk' named hnamed).1]
    exact hl
  have hempty : Vacant { ws with buffers := buffers } l := by
    refine ⟨(hvacant l hl).unit, Option.eq_none_iff_forall_ne_some.mpr fun text htext => ?_,
      (hvacant l hl).pending⟩
    rcases hbuffers l text htext with hbefore | ⟨hput, -⟩
    · rw [(hvacant l hl).buffer] at hbefore
      cases hbefore
    · refine hl' (harrives.led_isReal hrequest (fun _ => .inl) l ?_)
      rw [List.map_append]
      exact List.mem_append_right _ (Operation.mem_map_canonical_of_puts hput hrequest)
  exact hloads.vacant hstart hempty fun hmem => hl' (harrives.led_isReal hrequest hchanged l hmem)

/-- All that is kept of files is kept at real locations. -/
structure KeptReal (disk : Disk) (ws : Workspace) : Prop where
  unit : ∀ l u, ws.unit? l = some u → disk.IsReal l
  buffer : ∀ l text, ws.buffers.get? l = some text → disk.IsReal l
  pending : ∀ l ∈ ws.pending.toList, disk.IsReal l

theorem keptReal_of_vacant (h : ∀ l, ¬ disk.IsReal l → ws.Vacant l) : KeptReal disk ws := by
  have hreal : ∀ {α : Type} {m : LocationMap α} {l value}, m.get? l = some value →
      (ws.Vacant l → m.get? l = none) → disk.IsReal l := by
    intro α m l value hget hnone
    by_contra hnot
    rw [hnone (h l hnot)] at hget
    cases hget
  refine ⟨fun l u hu => hreal hu Vacant.unit, fun l text htext => hreal htext Vacant.buffer,
    fun l hl => ?_⟩
  obtain ⟨value, hvalue⟩ := LocationMap.mem_keys_iff.mp hl
  exact hreal hvalue Vacant.pending

/-- Under whatever spelling an update is given a model file, it reads the file into the unit where
the spelling leads, if a package owns it there and its parse is not called off. -/
theorem Settled.readsAt_resolved (h : ws.Settled) (hadmitted : ws.Admitted) (hl : l ∈ changed)
    {real : Location} (hreal : disk.resolve l = .ok real)
    (hfile : disk.isDirectory real = .ok false) (htracked : ws.config.isTracked real = true)
    (hmodel : ws.config.isManifest real = false) :
    (ws.update disk changed deleted).GivesUnless disk.Splits fun (report, next) =>
      real ∉ report.cancelled → (next.packages.packageFor? real).isSome = true →
        next.ReadsAt disk real := by
  obtain ⟨last, models, hloads⟩ := h.exists_loadsFiles hadmitted disk changed deleted
  refine update_gives_of ?_
  rw [updated_eq hloads.loaded]
  intro hnot howned
  have hasked : real ∈ ws.reached disk changed := by
    refine List.mem_flatMap.mpr ⟨l, hl, ?_⟩
    unfold reachedFrom
    dsimp only
    rw [Disk.canonical_eq hreal, ← (disk.isDirectory_gives real).of_eq_ok hfile,
      if_neg Bool.false_ne_true, if_pos htracked]
    exact List.mem_singleton_self real
  have hloaded : real ∈ models.toList := by
    refine hloads.requested _ (Build.mem_requestedModels.mpr
      ⟨h.mem_requested_iff.mpr (.inl hasked), ?_⟩)
    rw [(h.loading_begun disk deleted).config_eq]
    exact hmodel
  exact (hloads.readsAt h hloaded hnot howned).1

/-- What is kept of the files of a disk with aliases: no place has two units, and a model file is
read into the unit where its spelling leads, whatever buffers are open. -/
structure KeepsOneUnit (disk : Disk) (ws : Workspace) : Prop extends KeptReal disk ws where
  unique : ∀ a b u v, ws.unit? a = some u → ws.unit? b = some v → disk.SamePlace a b → a = b
  reads : ∀ buffers disk changed deleted, ∀ l ∈ changed, ∀ real, disk.resolve l = .ok real →
    disk.isDirectory real = .ok false →
    ws.config.isTracked real = true →
    ws.config.isManifest real = false →
    (Workspace.update { ws with buffers := buffers } disk changed deleted).GivesUnless
      disk.Splits fun (report, next) =>
        real ∉ report.cancelled → (next.packages.packageFor? real).isSome = true →
          next.ReadsAt disk real

/-- Behind every run in which all that is named, and all files, lead to real locations, one unit
is kept for a place.  With buffers that are opened and changed where there is no file below,
units show their buffers. -/
theorem run_keepsOneUnit (config : WorkspaceConfig) (operations : List Operation)
    (harrives : ∀ operation ∈ operations, operation.Arrives disk.aliases) :
    ((Workspace.ofConfig config).run operations).GivesUnless (SplitBy operations) fun ws =>
      KeepsOneUnit disk ws ∧ ((∀ operation ∈ operations, operation.Lands) → ∀ l, ws.Shows l) := by
  let Q := fun ws : Workspace => ws.Settled ∧ ws.Admitted ∧ (∀ l, ¬ disk.IsReal l → ws.Vacant l) ∧
    ((∀ operation ∈ operations, operation.Lands) → ∀ l, ws.Shows l)
  have hstep : ∀ ws : Workspace, ∀ operation ∈ operations, Q ws →
      (operation.apply ws).GivesUnless operation.Splits Q := by
    rintro ws operation hmem ⟨hsettled, hadmitted, hvacant, hshows⟩
    have hempty := hsettled.perform_vacant hadmitted (harrives operation hmem) hvacant
    refine Operation.apply_gives (((hsettled.perform hadmitted operation).and hempty).mono ?_)
    rintro _ ⟨⟨hnext, hnext', -, hshown⟩, hleft⟩
    exact ⟨hnext, hnext', hleft, fun hlands => hshown (hlands operation hmem) (hshows hlands)⟩
  refine (run_induction (Q := Q) hstep ⟨Settled.ofConfig config, Admitted.ofConfig config,
    fun _ _ => ⟨rfl, rfl, rfl⟩, fun _ _ _ _ hu => nomatch hu⟩).mono ?_
  rintro ws ⟨hsettled, hadmitted, hvacant, hshows⟩
  have hkept := keptReal_of_vacant hvacant
  refine ⟨⟨hkept, fun a b u v hu hv hsame => ?_, ?_⟩, hshows⟩
  · exact hsame.eq_of_isReal (hkept.unit a u hu) (hkept.unit b v hv)
  · intro buffers disk' changed deleted l hl real hreal
    have hstart : Settled { ws with buffers := buffers } := hsettled.congr rfl rfl rfl rfl
    exact hstart.readsAt_resolved (hadmitted.congr rfl rfl rfl) hl hreal

/-- **Where canonical locations are canonical, a place has one unit.**  A location leads somewhere
unless it is cut, below an alias for the root, in front of a character of more than one byte.  What
it leads to is real, so that it leads to itself, just when with all files that there could be the
disk answers alike at the two.  This is so when no alias counts where the location leads; with
proper names of aliases it is so just when none but one that stands for itself counts there, and of
every location if it is of the probes.

An operation whose locations and files lead to real locations does the same under all spellings.
And behind every run of such operations units, buffers and interrupted parses are at real
locations, no place has two units, model files are read into the units where their spellings lead,
and units show their buffers if these are opened and changed where there is no file below. -/
theorem spellings_lead_to_one_unit (disk : Disk) :
    (∀ l, (∃ real, disk.resolve l = .ok real) ∨
      disk.Splits l ∧ ∃ target c rest, disk.Governs l ⟨"/"⟩ target ∧
        l.chars = '/' :: c :: rest ∧ 1 < c.utf8Size) ∧
    (∀ l real, disk.resolve l = .ok real →
      (disk.IsReal real ↔ ∀ files, Disk.AnswersAlike { disk with files := files } l real) ∧
      ((∀ name target, ¬ disk.Governs real name target) → disk.IsReal real)) ∧
    (disk.HasProperAliases →
      (∀ l, l.IsResolved → ∃ real, disk.resolve l = .ok real ∧
        (disk.IsReal real ↔ ∀ name target, disk.Governs real name target → target = name)) ∧
      ((∀ l, l.IsResolved → disk.IsReal (disk.canonical l)) ↔
        ∀ l ∈ disk.probes, disk.IsReal (disk.canonical l))) ∧
    (∀ (ws : Workspace) (operation other : Operation), operation.Respells other →
      operation.Arrives disk.aliases → other.Arrives disk.aliases →
        operation.perform ws = other.perform ws) ∧
    ∀ config operations, (∀ operation ∈ operations, operation.Arrives disk.aliases) →
      ((Workspace.ofConfig config).run operations).GivesUnless (SplitBy operations) fun ws =>
        KeepsOneUnit disk ws ∧
        ((∀ operation ∈ operations, operation.Lands) →
          ∀ l u text, ws.unit? l = some u → l ∉ ws.pending.toList →
            ws.buffers.get? l = some text → u.text = text) := by
  refine ⟨fun l => ?_, fun l real hl => ⟨?_, fun hnone => ?_⟩, fun hproper => ⟨fun l hl => ?_, ?_⟩,
    ?_, ?_⟩
  · exact (disk.resolve_cases l).imp (fun h => ⟨_, h⟩) fun h => ⟨h, Disk.splits_iff.mp h⟩
  · exact Disk.isReal_iff_answersAlike hl
  · exact Disk.isReal_of_not_governs hnone
  · exact ⟨_, hproper.resolve_eq l, hproper.isReal_iff (hproper.isResolved_canonical hl)⟩
  · exact hproper.isReal_canonical_all_iff
  · intro ws operation other hrespells harrives hother
    exact hrespells.perform_eq harrives hother ws
  · exact run_keepsOneUnit

end Workspace

namespace Histories

open Workspace

/-- A package that an alias leads to. -/
def aliased : Disk :=
  ((Disk.empty.write ⟨"/real/p/package.json"⟩ (manifestAt "/real/p/package.json").2).write
    ⟨"/real/p/a.cm"⟩ (entityAt "/real/p/a.cm" "A").2).addAlias ⟨"/ws/link"⟩ ⟨"/real/p"⟩

/-- A file in the package is opened under some spelling. -/
def openedAs (l : Location) : Operation :=
  .openBuffer aliased l (entityAt "/real/p/a.cm" "B").2

/-- The package is looked at through its alias, and a file in it opened. -/
def throughAlias : List Operation :=
  [.update aliased [⟨"/ws/link"⟩] [], openedAs ⟨"/ws/link/a.cm"⟩]

theorem spellings_lead_to_one_unit_aliased :
    aliased.HasProperAliases ∧ (∀ l, l.IsResolved → aliased.IsReal (aliased.canonical l)) ∧
      (∀ ws, (openedAs ⟨"/ws/link/a.cm"⟩).perform ws = (openedAs ⟨"/real/p/a.cm"⟩).perform ws) ∧
      ∃ ws u text, (Workspace.ofConfig {}).run throughAlias = .ok ws ∧ KeepsOneUnit aliased ws ∧
        ws.unit? ⟨"/real/p/a.cm"⟩ = some u ∧ ws.buffers.get? ⟨"/real/p/a.cm"⟩ = some text ∧
        u.text = text := by
  have hpath : ∀ path, Location.ofPath path = ⟨path⟩ → Location.IsResolved ⟨path⟩ :=
    fun path h => Location.IsPath.isResolved ⟨path, h.symm⟩
  have hproper : aliased.HasProperAliases := by
    have halias : ∀ name target, aliased.aliases.get? name = some target →
        name = ⟨"/ws/link"⟩ ∧ target = ⟨"/real/p"⟩ := by
      intro name target hget
      rcases LocationMap.get?_insert_eq_some_iff.mp hget with ⟨rfl, rfl⟩ | ⟨-, hnone⟩
      · exact ⟨rfl, rfl⟩
      · cases hnone
    refine ⟨fun name target hget => ?_, fun name target hget => ?_⟩
    · rw [(halias name target hget).1]
      exact ⟨hpath _ (by decide +kernel), by decide +kernel⟩
    · rw [(halias name target hget).2]
      exact hpath _ (by decide +kernel)
  have hopened : ∀ l, aliased.IsReal (aliased.canonical l) →
      (openedAs l).Arrives aliased.aliases := by
    rintro l hreal disk named ⟨⟩
    refine ⟨rfl, List.forall_mem_append.mpr ⟨by decide +kernel, ?_⟩⟩
    exact List.forall_mem_singleton.mpr hreal
  have harrives : ∀ operation ∈ throughAlias, operation.Arrives aliased.aliases := by
    refine List.forall_mem_cons.mpr ⟨?_, List.forall_mem_singleton.mpr
      (hopened _ (by decide +kernel))⟩
    rintro disk named ⟨⟩
    exact ⟨rfl, by decide +kernel⟩
  have hlands : ∀ operation ∈ throughAlias, operation.Lands :=
    List.forall_mem_cons.mpr ⟨trivial, List.forall_mem_singleton.mpr
      (show aliased.IsReal _ ∧ _ from by decide +kernel)⟩
  obtain ⟨-, -, hspellings, hrespelled, hruns⟩ := spellings_lead_to_one_unit aliased
  obtain ⟨ws, hrun, hkeeps, hshows⟩ :=
    (hruns {} throughAlias harrives).exists_ok (not_splitBy (by decide +kernel))
  have hfacts : ((Workspace.ofConfig {}).run throughAlias).toOption.map (fun ws =>
      ((ws.unit? ⟨"/real/p/a.cm"⟩).isSome, (ws.buffers.get? ⟨"/real/p/a.cm"⟩).isSome,
        ws.pending.keys)) = some (true, true, []) := by
    decide +kernel
  rw [hrun] at hfacts
  simp only [Except.toOption, Option.map_some, Option.some.injEq, Prod.mk.injEq,
    Option.isSome_iff_exists] at hfacts
  obtain ⟨⟨u, hu⟩, ⟨text, htext⟩, hpending⟩ := hfacts
  refine ⟨hproper, (hspellings hproper).2.mpr (by decide +kernel), fun ws => ?_,
    ws, u, text, hrun, hkeeps, hu, htext, hshows hlands _ u text hu ?_ htext⟩
  · exact hrespelled ws _ _ (.openBuffer _ ⟨1, 0, by decide +kernel⟩)
      (hopened _ (by decide +kernel)) (hopened _ (by decide +kernel))
  · rw [LocationSet.toList, hpending]
    exact List.not_mem_nil

/-- A package that an alias of an alias leads to. -/
def chained : Disk :=
  ((((Disk.empty.write ⟨"/c/package.json"⟩ (manifestAt "/c/package.json").2).write
    ⟨"/c/a.cm"⟩ (entityAt "/c/a.cm" "A").2).addAlias ⟨"/b"⟩ ⟨"/c"⟩)).addAlias ⟨"/a"⟩ ⟨"/b"⟩

/-- A chain of aliases is followed for one step only.  What can be read where a location leads is
missing at the location, a file that is opened through the chain is read from the disk, and a file
that is changed under two spellings has two units. -/
theorem canonical_location_not_canonical :
    chained.resolve ⟨"/a/a.cm"⟩ = .ok ⟨"/b/a.cm"⟩ ∧
      chained.resolve ⟨"/b/a.cm"⟩ = .ok ⟨"/c/a.cm"⟩ ∧
      chained.read ⟨"/a/a.cm"⟩ = .ok (.error (.missing ⟨"/a/a.cm"⟩)) ∧
      chained.read ⟨"/b/a.cm"⟩ = .ok (.ok (entityAt "/c/a.cm" "A").2) ∧
      ((Workspace.ofConfig {}).run [.update chained [⟨"/c"⟩] [],
          .openBuffer chained ⟨"/a/a.cm"⟩ (entityAt "/c/a.cm" "B").2]).toOption.map (fun ws =>
        (ws.buffers.keys, (ws.unit? ⟨"/c/a.cm"⟩).map (·.text))) =
          some ([⟨"/b/a.cm"⟩], some (entityAt "/c/a.cm" "A").2) ∧
      ((Workspace.ofConfig {}).run [
          .update chained [⟨"/b/package.json"⟩, ⟨"/b/a.cm"⟩] [],
          .update chained [⟨"/a/package.json"⟩, ⟨"/a/a.cm"⟩] []]).toOption.map (·.units.keys) =
        some [⟨"/b/a.cm"⟩, ⟨"/b/package.json"⟩, ⟨"/c/a.cm"⟩, ⟨"/c/package.json"⟩] := by
  decide +kernel

end Histories
end ModelWorkspace
