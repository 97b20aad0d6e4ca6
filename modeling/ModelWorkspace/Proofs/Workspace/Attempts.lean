import ModelWorkspace.Proofs.Text.Location
import ModelWorkspace.Proofs.Text.LocationMap
import ModelWorkspace.Proofs.Text.Slices
import ModelWorkspace.Workspace.Update

/-!
# What attempts lead to

An operation of a workspace can only come to nothing where a location is cut within a
character.  That takes an alias for the root and a location whose first name starts with
a character of more than one byte (`Disk.splits_iff`); everything else leads somewhere.

What an attempt gives is told by a total function beside it, which takes a location that
cannot be cut for itself: `Workspace.found` for reading, `Workspace.scanned` and
`Workspace.reached` for directories, `Workspace.begun` for deletions.
-/

namespace ModelWorkspace

namespace Attempt

variable {α β : Type} {x : Attempt α} {cut : Location → Prop} {P Q : α → Prop}

/-- An attempt gives an answer with a property, unless a location is cut of which `cut`
holds. -/
def GivesUnless (x : Attempt α) (cut : Location → Prop) (P : α → Prop) : Prop :=
  (∃ a, x = .ok a ∧ P a) ∨ ∃ l, x = .error (.cut l) ∧ cut l

namespace GivesUnless

theorem of_ok {a : α} (ha : x = .ok a) (hP : P a) : x.GivesUnless cut P :=
  .inl ⟨a, ha, hP⟩

theorem of_cut {l : Location} (hl : x = .error (.cut l)) (hcut : cut l) :
    x.GivesUnless cut P :=
  .inr ⟨l, hl, hcut⟩

theorem mono (h : x.GivesUnless cut P) (hP : ∀ a, P a → Q a) : x.GivesUnless cut Q :=
  h.imp_left fun ⟨a, ha, hPa⟩ => ⟨a, ha, hP a hPa⟩

/-- More may be excepted. -/
theorem weaken (h : x.GivesUnless cut P) {more : Location → Prop}
    (hmore : ∀ l, cut l → more l) : x.GivesUnless more P :=
  h.imp_right fun ⟨l, hl, hcut⟩ => ⟨l, hl, hmore l hcut⟩

/-- What gives an answer is known to give it. -/
theorem with_eq (h : x.GivesUnless cut P) : x.GivesUnless cut fun a => x = .ok a ∧ P a :=
  h.imp_left fun ⟨a, ha, hP⟩ => ⟨a, ha, ha, hP⟩

/-- The answer itself has the property. -/
theorem of_eq_ok (h : x.GivesUnless cut P) {a : α} (ha : x = .ok a) : P a := by
  rcases h with ⟨b, hb, hP⟩ | ⟨l, hl, -⟩
  · cases hb.symm.trans ha
    exact hP
  · cases hl.symm.trans ha

/-- Two properties of the answer, each shown on its own. -/
theorem and (h : x.GivesUnless cut P) (h' : x.GivesUnless cut Q) :
    x.GivesUnless cut fun a => P a ∧ Q a := by
  rcases h with ⟨a, ha, hP⟩ | ⟨l, hl, hcut⟩
  · exact .of_ok ha ⟨hP, h'.of_eq_ok ha⟩
  · exact .of_cut hl hcut

/-- Where nothing is cut there is an answer. -/
theorem exists_ok (h : x.GivesUnless cut P) (hnone : ∀ l, ¬ cut l) : ∃ a, x = .ok a ∧ P a :=
  h.resolve_right fun ⟨l, _, hcut⟩ => hnone l hcut

theorem eq_ok {a : α} (h : x.GivesUnless cut (· = a)) (hnone : ∀ l, ¬ cut l) : x = .ok a := by
  obtain ⟨_, ha, rfl⟩ := h.exists_ok hnone
  exact ha

theorem bind (h : x.GivesUnless cut P) {f : α → Attempt β} {R : β → Prop}
    (hf : ∀ a, P a → (f a).GivesUnless cut R) : GivesUnless (x >>= f) cut R := by
  rcases h with ⟨a, rfl, hP⟩ | ⟨l, rfl, hcut⟩
  · exact hf a hP
  · exact .of_cut rfl hcut

theorem map (h : x.GivesUnless cut P) {f : α → β} {R : β → Prop} (hf : ∀ a, P a → R (f a)) :
    GivesUnless (x.map f) cut R := by
  rcases h with ⟨a, rfl, hP⟩ | ⟨l, rfl, hcut⟩
  · exact .of_ok rfl (hf a hP)
  · exact .of_cut rfl hcut

/-- Attempts one after the other, each with an answer that is known. -/
theorem mapM {f : β → Attempt α} {g : β → α}
    (h : ∀ b, (f b).GivesUnless cut (· = g b)) (bs : List β) :
    GivesUnless (bs.mapM f) cut (· = bs.map g) := by
  induction bs with
  | nil => exact .of_ok rfl rfl
  | cons b rest ih =>
      rw [List.mapM_cons]
      refine (h b).bind fun _ ha => ih.bind fun _ has => .of_ok rfl ?_
      rw [ha, has, List.map_cons]

/-- Attempts one after the other, each going on from the answer of the one before. -/
theorem foldlM {f : α → β → Attempt α} {g : α → β → α}
    (h : ∀ a b, (f a b).GivesUnless cut (· = g a b)) (a : α) (bs : List β) :
    GivesUnless (bs.foldlM f a) cut (· = bs.foldl g a) := by
  induction bs generalizing a with
  | nil => exact .of_ok rfl rfl
  | cons b rest ih =>
      rw [List.foldlM_cons, List.foldl_cons]
      exact (h a b).bind fun _ ha => ha ▸ ih _

end GivesUnless

/-- Attempts one after the other give answers if and only if each of them does. -/
theorem exists_mapM_iff {f : β → Attempt α} {bs : List β} :
    (∃ as, bs.mapM f = .ok as) ↔ ∀ b ∈ bs, ∃ a, f b = .ok a := by
  induction bs with
  | nil => exact ⟨fun _ => List.forall_mem_nil _, fun _ => ⟨[], rfl⟩⟩
  | cons b rest ih =>
      rw [List.mapM_cons, List.forall_mem_cons, ← ih]
      cases hb : f b with
      | error failure => exact ⟨fun ⟨_, h⟩ => (nomatch h), fun ⟨⟨_, h⟩, _⟩ => (nomatch h)⟩
      | ok a =>
          cases hrest : rest.mapM f with
          | error failure => exact ⟨fun ⟨_, h⟩ => (nomatch h), fun ⟨_, _, h⟩ => (nomatch h)⟩
          | ok as => exact ⟨fun _ => ⟨⟨a, rfl⟩, as, rfl⟩, fun _ => ⟨a :: as, rfl⟩⟩

/-- So do steps that each make one attempt first. -/
theorem exists_foldlM_iff {γ : Type} {f : γ → α → α} {g : β → Attempt γ} {a : α} {bs : List β} :
    (∃ last, bs.foldlM (fun a b => (g b).map (f · a)) a = .ok last) ↔
      ∀ b ∈ bs, ∃ c, g b = .ok c := by
  induction bs generalizing a with
  | nil => exact ⟨fun _ => List.forall_mem_nil _, fun _ => ⟨a, rfl⟩⟩
  | cons b rest ih =>
      rw [List.foldlM_cons, List.forall_mem_cons]
      cases hb : g b with
      | error failure => exact ⟨fun ⟨_, h⟩ => (nomatch h), fun ⟨⟨_, h⟩, _⟩ => (nomatch h)⟩
      | ok c => exact ih.trans (and_iff_right ⟨c, rfl⟩).symm

/-- Two attempts end alike: both give answers, which are related, or neither does. -/
inductive Alike (R : α → β → Prop) : Attempt α → Attempt β → Prop
  | given {a : α} {b : β} (related : R a b) : Alike R (.ok a) (.ok b)
  | stopped (failure other : Failure) : Alike R (.error failure) (.error other)

namespace Alike

variable {γ δ : Type} {y : Attempt β} {R : α → β → Prop} {S : γ → δ → Prop}

theorem refl (x : Attempt α) : Alike (· = ·) x x := by
  cases x with
  | ok a => exact .given rfl
  | error failure => exact .stopped failure failure

theorem mono (h : Alike R x y) {Q : α → β → Prop} (hQ : ∀ a b, R a b → Q a b) :
    Alike Q x y := by
  cases h with
  | given related => exact .given (hQ _ _ related)
  | stopped failure other => exact .stopped failure other

/-- Where the one gives an answer the other does, too. -/
theorem exists_ok (h : Alike R x y) {a : α} (ha : x = .ok a) : ∃ b, y = .ok b ∧ R a b := by
  cases h with
  | given related =>
      cases ha
      exact ⟨_, rfl, related⟩
  | stopped failure other => cases ha

/-- Answers that are known are all that has to be compared. -/
theorem of_gives {a : α} {b : β} {other : Location → Prop} (hx : x.GivesUnless cut (· = a))
    (hy : y.GivesUnless other (· = b)) (hiff : (∃ a, x = .ok a) ↔ ∃ b, y = .ok b) (h : R a b) :
    Alike R x y := by
  rcases hx with ⟨_, rfl, rfl⟩ | ⟨l, rfl, -⟩
  · obtain ⟨_, hb⟩ := hiff.mp ⟨_, rfl⟩
    cases hy.of_eq_ok hb
    exact hb ▸ .given h
  · rcases hy with ⟨_, rfl, -⟩ | ⟨m, rfl, -⟩
    · obtain ⟨_, ha⟩ := hiff.mpr ⟨_, rfl⟩
      cases ha
    · exact .stopped _ _

theorem bind (h : Alike R x y) {f : α → Attempt γ} {g : β → Attempt δ}
    (hf : ∀ a b, R a b → Alike S (f a) (g b)) : Alike S (x >>= f) (y >>= g) := by
  cases h with
  | given related => exact hf _ _ related
  | stopped failure other => exact .stopped failure other

theorem map (h : Alike R x y) {f : α → γ} {g : β → δ} (hf : ∀ a b, R a b → S (f a) (g b)) :
    Alike S (x.map f) (y.map g) := by
  cases h with
  | given related => exact .given (hf _ _ related)
  | stopped failure other => exact .stopped failure other

/-- Steps that go on alike end alike. -/
theorem foldlM {f : α → γ → Attempt α} {g : β → γ → Attempt β} {a : α} {b : β} (h : R a b)
    (hf : ∀ a b c, R a b → Alike R (f a c) (g b c)) (cs : List γ) :
    Alike R (cs.foldlM f a) (cs.foldlM g b) := by
  induction cs generalizing a b with
  | nil => exact .given h
  | cons c rest ih =>
      rw [List.foldlM_cons, List.foldlM_cons]
      exact (hf a b c h).bind fun _ _ hnext => ih hnext

end Alike

end Attempt

open Attempt

namespace Disk

variable {disk : Disk} {l : Location}

/-- The path of a location is cut within a character. -/
def Splits (disk : Disk) (l : Location) : Prop :=
  disk.resolve l = .error (.cut l)

theorem resolve_of_unaliased (h : disk.aliases.deepest? l.isWithin = none) :
    disk.resolve l = .ok l := by
  unfold resolve
  rw [h]

theorem resolve_of_alias {target : Location}
    (h : disk.aliases.deepest? l.isWithin = some (l, target)) : disk.resolve l = .ok target := by
  unfold resolve
  rw [h]
  exact if_pos rfl

/-- Below an alias other than one for the root the separator is cut off, too. -/
theorem resolve_below {name target : Location}
    (h : disk.aliases.deepest? l.isWithin = some (name, target)) (hne : name ≠ l)
    (hroot : name.path ≠ "/") :
    disk.resolve l =
      .ok (target.join (String.ofList (l.chars.drop (name.chars.length + 1)))) := by
  have hbelow : l.isBelow name = true :=
    (Location.isWithin_iff_eq_or_isBelow.mp (LocationMap.get?_of_deepest? h).2).resolve_left
      (Ne.symm hne)
  unfold Location.isBelow at hbelow
  rw [if_neg hroot, List.isPrefixOf_iff_prefix] at hbelow
  obtain ⟨rest, hrest⟩ := hbelow
  have hfront : takeBytes (byteWidth name.chars + 1) l.chars = some (name.chars ++ ['/']) := by
    have hwidth : byteWidth name.chars + 1 = byteWidth (name.chars ++ ['/']) := by
      rw [byteWidth_append]
      rfl
    rw [hwidth, ← hrest]
    exact takeBytes_append _ rest
  unfold resolve
  rw [h]
  dsimp only
  rw [if_neg hne, hfront]
  dsimp only
  rw [List.length_append]
  rfl

/-- Below an alias for the root the first byte of a name is cut off. -/
theorem resolve_below_root {target : Location} {c : Char} {rest : List Char}
    (h : disk.aliases.deepest? l.isWithin = some (⟨"/"⟩, target))
    (hl : l.chars = '/' :: c :: rest) :
    disk.resolve l =
      if c.utf8Size ≤ 1 then .ok (target.join (String.ofList rest)) else .error (.cut l) := by
  have hne : (⟨"/"⟩ : Location) ≠ l := by
    rintro rfl
    cases hl
  have htake : takeBytes (byteWidth (Location.chars ⟨"/"⟩) + 1) l.chars =
      if c.utf8Size ≤ 1 then some ['/', c] else none := by
    have hnone : 1 - c.utf8Size = 0 := Nat.sub_eq_zero_of_le (Char.utf8Size_pos c)
    rw [hl]
    show (if 1 ≤ 2 then (takeBytes 1 (c :: rest)).map ('/' :: ·) else none) = _
    rw [if_pos (by decide), takeBytes, Nat.zero_add, hnone, takeBytes]
    split <;> rfl
  unfold resolve
  rw [h]
  dsimp only
  rw [if_neg hne, htake]
  by_cases hsize : c.utf8Size ≤ 1
  · rw [if_pos hsize, if_pos hsize]
    dsimp only
    rw [hl]
    rfl
  · rw [if_neg hsize, if_neg hsize]

/-- A location is split just below an alias for the root, where a name starts with a character
of more than one byte. -/
theorem splits_iff : disk.Splits l ↔ ∃ target c rest,
    disk.aliases.deepest? l.isWithin = some (⟨"/"⟩, target) ∧ l.chars = '/' :: c :: rest ∧
      1 < c.utf8Size := by
  unfold Splits
  constructor
  · intro h
    cases hfound : disk.aliases.deepest? l.isWithin with
    | none =>
        rw [resolve_of_unaliased hfound] at h
        cases h
    | some entry =>
        obtain ⟨name, target⟩ := entry
        by_cases hself : name = l
        · subst hself
          rw [resolve_of_alias hfound] at h
          cases h
        by_cases hroot : name.path = "/"
        · obtain rfl : name = ⟨"/"⟩ := Location.ext_path hroot
          have hbelow : l.isBelow ⟨"/"⟩ = true :=
            (Location.isWithin_iff_eq_or_isBelow.mp
              (LocationMap.get?_of_deepest? hfound).2).resolve_left (Ne.symm hself)
          obtain ⟨c, rest, hl⟩ : ∃ c rest, l.chars = '/' :: c :: rest := by
            unfold Location.isBelow at hbelow
            rw [if_pos rfl, Bool.and_eq_true, decide_eq_true_iff, beq_iff_eq] at hbelow
            obtain ⟨hlength, hhead⟩ := hbelow
            obtain ⟨behind, hbehind⟩ := List.head?_eq_some_iff.mp hhead
            cases behind with
            | nil =>
                rw [hbehind] at hlength
                exact absurd hlength (by decide)
            | cons c rest => exact ⟨c, rest, hbehind⟩
          rw [resolve_below_root hfound hl] at h
          split at h
          · cases h
          · exact ⟨target, c, rest, rfl, hl, by omega⟩
        · rw [resolve_below hfound hself hroot] at h
          cases h
  · rintro ⟨target, c, rest, hfound, hl, hwide⟩
    rw [resolve_below_root hfound hl, if_neg (by omega)]

/-- A location leads somewhere, or it is split. -/
theorem resolve_cases (disk : Disk) (l : Location) :
    disk.resolve l = .ok (disk.canonical l) ∨ disk.Splits l := by
  unfold canonical Splits
  cases h : disk.resolve l with
  | ok place => exact .inl rfl
  | error failure =>
      right
      unfold resolve at h
      split at h
      · cases h
      · split at h
        · cases h
        · split at h
          · cases h
          · cases h
            rfl

theorem resolve_gives (disk : Disk) (l : Location) :
    (disk.resolve l).GivesUnless disk.Splits (· = disk.canonical l) := by
  rcases disk.resolve_cases l with hplace | hsplits
  · exact .of_ok hplace rfl
  · exact .of_cut hsplits hsplits

theorem canonical_eq {place : Location} (h : disk.resolve l = .ok place) :
    disk.canonical l = place := by
  unfold canonical
  rw [h]
  rfl

/-- Nothing is split without an alias for the root. -/
theorem not_splits (h : disk.aliases.get? ⟨"/"⟩ = none) (l : Location) : ¬ disk.Splits l := by
  rw [splits_iff]
  rintro ⟨target, c, rest, hfound, -⟩
  have hget := (LocationMap.get?_of_deepest? hfound).1
  rw [h] at hget
  cases hget

theorem read_gives (disk : Disk) (l : Location) :
    (disk.read l).GivesUnless disk.Splits (· = disk.textAt l (disk.canonical l)) :=
  (disk.resolve_gives l).map fun _ h => h ▸ rfl

theorem walk_gives (disk : Disk) (l : Location) :
    (disk.walk l).GivesUnless disk.Splits (· = disk.filesBelow (disk.canonical l)) :=
  (disk.resolve_gives l).map fun _ h => h ▸ rfl

/-- Whether there are files below where a location leads. -/
def holdsFiles (disk : Disk) (l : Location) : Bool :=
  disk.files.keys.any (·.isBelow (disk.canonical l))

theorem isDirectory_gives (disk : Disk) (l : Location) :
    (disk.isDirectory l).GivesUnless disk.Splits (· = disk.holdsFiles l) :=
  (disk.resolve_gives l).map fun _ h => h ▸ rfl

end Disk

namespace Workspace

/-- What there is to load of a file. -/
def found (ws : Workspace) (disk : Disk) (l : Location) : Loaded :=
  match ws.buffers.get? l with
  | some text => .text text
  | none => .ofAnswer (disk.textAt l (disk.canonical l))

theorem read_gives (ws : Workspace) (disk : Disk) (l : Location) :
    (ws.read disk l).GivesUnless disk.Splits (· = ws.found disk l) := by
  unfold read found
  cases ws.buffers.get? l with
  | some text => exact .of_ok rfl rfl
  | none => exact (disk.read_gives l).map fun _ h => h ▸ rfl

/-- What is open is found in its buffer. -/
theorem found_of_buffer {ws : Workspace} {l : Location} {text : String}
    (h : ws.buffers.get? l = some text) (disk : Disk) : ws.found disk l = .text text := by
  unfold found
  rw [h]

/-- Nothing but the buffer of a file matters for what is found of it. -/
theorem found_congr {ws other : Workspace} {l : Location}
    (h : ws.buffers.get? l = other.buffers.get? l) (disk : Disk) :
    ws.found disk l = other.found disk l := by
  unfold found
  rw [h]

/-- What is missing is neither open nor on the disk. -/
theorem found_eq_missing_iff {ws : Workspace} {disk : Disk} {l : Location} :
    ws.found disk l = .missing ↔
      ws.buffers.get? l = none ∧ disk.files.get? (disk.canonical l) = none := by
  unfold found Disk.textAt
  cases ws.buffers.get? l with
  | some text => simp
  | none =>
      cases disk.files.get? (disk.canonical l) with
      | none => simp [Loaded.ofAnswer]
      | some text =>
          cases disk.unreadable.get? (disk.canonical l) <;> simp [Loaded.ofAnswer]

/-- What is found is open, or on the disk. -/
theorem buffer_or_file_of_found {ws : Workspace} {disk : Disk} {l : Location} {text : String}
    (h : ws.found disk l = .text text) :
    ws.buffers.get? l = some text ∨
      ws.buffers.get? l = none ∧ disk.files.get? (disk.canonical l) = some text := by
  cases hbuffer : ws.buffers.get? l with
  | some source =>
      cases (found_of_buffer hbuffer disk).symm.trans h
      exact .inl rfl
  | none =>
      unfold found Disk.textAt at h
      rw [hbuffer] at h
      cases hfile : disk.files.get? (disk.canonical l) with
      | none =>
          rw [hfile] at h
          cases h
      | some source =>
          rw [hfile] at h
          cases hreason : disk.unreadable.get? (disk.canonical l) with
          | some reason =>
              rw [hreason] at h
              cases h
          | none =>
              rw [hreason] at h
              cases h
              exact .inr ⟨rfl, rfl⟩

/-- The tracked files that a directory leads to, in order. -/
def scanned (ws : Workspace) (disk : Disk) (directory : Location) : List Location :=
  ws.trackedAmong ((disk.filesBelow (disk.canonical directory)).map disk.canonical)

theorem scan_gives (ws : Workspace) (disk : Disk) (directory : Location) :
    (ws.scan disk directory).GivesUnless disk.Splits (· = ws.scanned disk directory) :=
  (disk.walk_gives directory).bind fun _ hfiles =>
    (GivesUnless.mapM disk.resolve_gives _).bind fun _ hplaces =>
      .of_ok rfl (by rw [hplaces, hfiles]; rfl)

theorem isTracked_of_mem_scanned {ws : Workspace} {disk : Disk} {directory l : Location}
    (h : l ∈ ws.scanned disk directory) : ws.config.isTracked l = true :=
  (List.mem_filter.mp (LocationSet.mem_toList_ofList.mp h)).2

/-- The tracked files that a changed location leads to. -/
def reachedFrom (ws : Workspace) (disk : Disk) (l : Location) : List Location :=
  let l := disk.canonical l
  if disk.holdsFiles l then ws.scanned disk l
  else if ws.config.isTracked l then [l]
  else []

theorem filesAt_gives (ws : Workspace) (disk : Disk) (l : Location) :
    (ws.filesAt disk l).GivesUnless disk.Splits (· = ws.reachedFrom disk l) := by
  refine (disk.resolve_gives l).bind fun _ hplace => hplace ▸ ?_
  refine (disk.isDirectory_gives (disk.canonical l)).bind fun _ hholds => ?_
  unfold reachedFrom
  dsimp only
  subst hholds
  split
  · exact ws.scan_gives disk _
  · exact .of_ok rfl rfl

/-- The tracked files that changed locations lead to. -/
def reached (ws : Workspace) (disk : Disk) (changed : List Location) : List Location :=
  changed.flatMap (ws.reachedFrom disk)

/-- What changed locations lead to is tracked. -/
theorem isTracked_of_mem_reached {ws : Workspace} {disk : Disk} {changed : List Location}
    {l : Location} (h : l ∈ ws.reached disk changed) : ws.config.isTracked l = true := by
  obtain ⟨c, -, hl⟩ := List.mem_flatMap.mp h
  unfold reachedFrom at hl
  dsimp only at hl
  split at hl
  · exact isTracked_of_mem_scanned hl
  · split at hl
    · rename_i htracked
      rw [List.mem_singleton.mp hl]
      exact htracked
    · exact absurd hl List.not_mem_nil

theorem changedFiles_gives (ws : Workspace) (disk : Disk) (changed : List Location) :
    (ws.changedFiles disk changed).GivesUnless disk.Splits (· = ws.reached disk changed) :=
  (GivesUnless.mapM (ws.filesAt_gives disk) changed).bind fun _ hfiles => .of_ok rfl (hfiles ▸ rfl)

/-- The build behind the removal of what was deleted. -/
def begun (ws : Workspace) (disk : Disk) (deleted : List Location) : Build :=
  (deleted.map disk.canonical).foldl Build.delete { workspace := ws }

theorem beginBuild_gives (ws : Workspace) (disk : Disk) (deleted : List Location) :
    (ws.beginBuild disk deleted).GivesUnless disk.Splits (· = ws.begun disk deleted) := by
  unfold begun
  rw [List.foldl_map]
  exact GivesUnless.foldlM (fun b l => (disk.resolve_gives l).map fun _ h => h ▸ rfl) _ deleted

end Workspace

end ModelWorkspace
