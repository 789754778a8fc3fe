import DesignTokens.Proofs.Discovery
import DesignTokens.Proofs.Stopping
import DesignTokens.Proofs.Reached

/-! What can stop the loading of a type, whatever library reads YAML. Each step is told by the faults
that pass through it, which come from files that cannot be read as text, from what a YAML text makes
its reader do, and from prefixes and keys that have no text; all other failures of the step are errors
of the library. -/
namespace DesignTokens

open Value

theorem Noted.foldlM_outcome_eq_error {α β : Type} {f : β → α → Noted β} {xs : List α} {b : β}
    {failure : Failure} :
    (xs.foldlM f b).outcome = .error failure ↔
      ∃ before x after acc, xs = before ++ x :: after ∧ (before.foldlM f b).outcome = .ok acc ∧
        (f acc x).outcome = .error failure := by
  simp only [outcome_foldlM, foldlM_eq_error]

namespace VariableSet

/-- A key of a tree has no text, and the leaves in front of it are added. -/
def LacksKey (s : VariableSet) (es : List (Value × Value)) : Prop :=
  ∃ n, textlessAmong? es = some n ∧ (s.add (.map (cutEntries n es))).failure = none

/-- The addition of a tree fails with an error of the library, or for want of a key's text. -/
theorem add_map_eq_fault {s : VariableSet} {es : List (Value × Value)} {f : Fault} :
    (s.add (.map es)).failure = some (.fault f) ↔ s.LacksKey es ∧ f = .value .unwritableInteger := by
  cases hfinal : s.finalized with
  | true =>
    have hclosed (es : List (Value × Value)) : (s.add (.map es)).failure =
        some (.of (.variablesFinalized s.mode s.typePrefix)) := by rw [add, hfinal]; rfl
    simp [LacksKey, hclosed, Failure.of]
  | false =>
    constructor
    · intro h
      rcases add_map_cases hfinal es with ⟨hnone, -⟩ | ⟨n, failure, ⟨hends, -⟩, hsome, hcut, -⟩
      · rw [h] at hnone
        cases hnone
      · obtain rfl : .fault f = failure := Option.some.inj (h.symm.trans hsome)
        cases hends with
        | key hkey => exact ⟨⟨n, hkey, hcut⟩, rfl⟩
    · rintro ⟨⟨n, hkey, hcut⟩, rfl⟩
      have hread : ReadableTo es n := fun m hm => by simp_all
      have hbefore := (add_cutEntries_failure hfinal hread).mp hcut
      rw [(add_map_eq hfinal es).2, Flattening.insertTree_of_accepted, hkey]
      · rfl
      · rwa [readableLeaves, hkey]

end VariableSet

section Overlays

variable [Yaml.Library]

theorem readYaml_eq_fault {expressions : Bool} {failure : LoadFault → TokenError} {text : String}
    {f : Fault} :
    readYaml expressions failure text = .error (.fault f) ↔
      Yaml.read expressions text = .error (.fault f) := by
  unfold readYaml
  split <;> simp [*]

theorem readYaml_eq_ok {expressions : Bool} {failure : LoadFault → TokenError} {text : String}
    {v : Value} :
    readYaml expressions failure text = .ok v ↔ Yaml.read expressions text = .ok v := by
  unfold readYaml
  split <;> simp [*]

/-- The fault that reading an overlay meets: its bytes are no text, its path is none, or its text
makes the reader of YAML fail in another way than by being malformed. -/
def OverlayFault (t : FileTree) (path : Path) (f : Fault) : Prop :=
  (t.readText path = .error f ∧ ∀ fault, f ≠ .file fault) ∨
    ∃ text, t.readText path = .ok text ∧ Yaml.read true text = .error (.fault f)

theorem OverlayFault.unique {t : FileTree} {path : Path} {f g : Fault} (hf : OverlayFault t path f)
    (hg : OverlayFault t path g) : f = g := by
  rcases hf with ⟨hf, -⟩ | ⟨text, htext, hf⟩ <;> rcases hg with ⟨hg, -⟩ | ⟨text', htext', hg⟩
  · simpa [hf] using hg
  · simp [hf] at htext'
  · simp [hg] at htext
  · obtain rfl : text = text' := by simpa [htext] using htext'
    simpa [hf] using hg

/-- What reading an overlay comes to: a fault of its bytes or its text, an error of the library about
its file, or a mapping. -/
theorem loadOverlay_cases (t : FileTree) (path : Path) :
    (∃ f, OverlayFault t path f ∧ (loadOverlay t path).outcome = .error (.fault f)) ∨
      ((∀ f, ¬ OverlayFault t path f) ∧
        ((∃ fault, (loadOverlay t path).outcome =
            .error (.token (Failure.load fault (some path) none none))) ∨
          ∃ es, (loadOverlay t path).outcome = .ok (.map es))) := by
  unfold loadOverlay OverlayFault
  cases hread : t.readText path with
  | error g =>
    cases g with
    | file g => exact Or.inr ⟨by simp, Or.inl ⟨_, rfl⟩⟩
    | _ => exact Or.inl ⟨_, Or.inl ⟨rfl, by simp⟩, rfl⟩
  | ok text =>
    simp only [Noted.outcome_bind, Noted.outcome_pure, Noted.outcome_ofExcept, ok_bind, readYaml]
    cases hyaml : Yaml.read true text with
    | error stop =>
      cases stop with
      | malformed => exact Or.inr ⟨by simp [hyaml], Or.inl ⟨_, rfl⟩⟩
      | fault f => exact Or.inl ⟨f, Or.inr ⟨text, rfl, hyaml⟩, rfl⟩
    | ok v =>
      refine Or.inr ⟨by simp [hyaml], ?_⟩
      cases v with
      | null => exact Or.inr ⟨[], rfl⟩
      | map es => exact Or.inr ⟨es, rfl⟩
      | _ => exact Or.inl ⟨_, rfl⟩

theorem loadOverlay_map {t : FileTree} {path : Path} {v : Value}
    (h : (loadOverlay t path).outcome = .ok v) : ∃ es, v = .map es := by
  rcases loadOverlay_cases t path with ⟨f, -, he⟩ | ⟨-, ⟨fault, he⟩ | ⟨es, he⟩⟩
  · cases he.symm.trans h
  · cases he.symm.trans h
  · exact ⟨es, Except.ok.inj (h.symm.trans he)⟩

theorem loadOverlay_token {t : FileTree} {path : Path} {e : TokenError}
    (h : (loadOverlay t path).outcome = .error (.token e)) :
    ∃ fault, e = ⟨.load fault, some ⟨none, none, some path⟩⟩ := by
  rcases loadOverlay_cases t path with ⟨f, -, he⟩ | ⟨-, ⟨fault, he⟩ | ⟨es, he⟩⟩
  · cases he.symm.trans h
  · cases he.symm.trans h
    exact ⟨fault, rfl⟩
  · cases he.symm.trans h

theorem loadOverlay_eq_fault {t : FileTree} {path : Path} {f : Fault} :
    (loadOverlay t path).outcome = .error (.fault f) ↔ OverlayFault t path f := by
  rcases loadOverlay_cases t path with ⟨g, hg, h⟩ | ⟨hnone, ⟨fault, h⟩ | ⟨es, h⟩⟩
  · rw [h, Except.error.injEq, Failure.fault.injEq]
    exact ⟨fun he => he ▸ hg, hg.unique⟩
  · simp [h, hnone]
  · simp [h, hnone]

end Overlays

theorem ModeSet.add_error {m : ModeSet} {name : String} {s : VariableSet} {failure : Failure}
    (h : m.add name s = .error failure) : ∃ e, failure = .token e := by
  unfold add at h
  repeat' split at h
  all_goals cases h
  all_goals exact ⟨_, rfl⟩

namespace TypeSource

/-- The variables of a tree cannot be named for want of a text: the tree has leaves and the prefix of
the type has none, or one of its keys has none. -/
def LacksText (s : TypeSource) (v : VariableSet) (es : List (Value × Value)) : Prop :=
  (s.typePrefix.hasText = false ∧ leavesOf [] es ≠ []) ∨ v.LacksKey es

theorem addTree_eq_fault {s : TypeSource} {v : VariableSet} {es : List (Value × Value)} {f : Fault} :
    (s.addTree v (.map es)).failure = some (.fault f) ↔
      s.LacksText v es ∧ f = .value .unwritableInteger := by
  unfold addTree LacksText
  rw [leavesAt]
  by_cases h : s.typePrefix.hasText = false ∧ leavesOf [] es ≠ []
  · have hguard : ¬ (s.typePrefix.hasText || (leavesOf [] es).isEmpty) = true := by simpa using h
    rw [if_neg hguard]
    simp only [h, ne_eq, not_false_eq_true, and_self, true_or, true_and, Option.some.injEq,
      Failure.value, Failure.fault.injEq]
    exact eq_comm
  · have hguard : (s.typePrefix.hasText || (leavesOf [] es).isEmpty) = true := by
      simpa [or_iff_not_imp_left] using h
    rw [if_pos hguard, VariableSet.add_map_eq_fault, or_iff_right h]

/-- The modes of a type that are not to be skipped. -/
def kept (s : TypeSource) (skip : List String) : List (String × List Path) :=
  s.modes.filter fun (mode, _) => !skip.contains mode

theorem baselineOf_cases (v : Value) :
    (v.isKey = false ∧ baselineOf v = .error (.fault (.kind (.notAKey v.kind)))) ∨
      (v.isKey = true ∧ ∃ b, baselineOf v = .ok b) := by
  unfold baselineOf
  split
  · exact Or.inr ⟨rfl, _, rfl⟩
  · cases hkey : v.isKey with
    | false => exact Or.inl ⟨rfl, rfl⟩
    | true => exact Or.inr ⟨rfl, _, rfl⟩

section Faults

variable [Yaml.Library]

/-- The fault that an overlay meets: reading it meets one, or its tree cannot be named. -/
inductive AdditionFault (t : FileTree) (s : TypeSource) (v : VariableSet) (path : Path) :
    Fault → Prop where
  | reading {f : Fault} (h : OverlayFault t path f) : AdditionFault t s v path f
  | naming {es : List (Value × Value)} (hload : (loadOverlay t path).outcome = .ok (.map es))
      (htext : s.LacksText v es) : AdditionFault t s v path (.value .unwritableInteger)

/-- An overlay is added unless it meets a fault; a tree that does not fit is an error of the
library. -/
theorem addOverlay_eq_fault {t : FileTree} {s : TypeSource} {v : VariableSet} {path : Path}
    {f : Fault} :
    (addOverlay t s v path).outcome = .error (.fault f) ↔ AdditionFault t s v path f := by
  unfold addOverlay
  simp only [Noted.outcome_bind, Noted.outcome_warnAll, ok_bind]
  have hcases : AdditionFault t s v path f ↔ OverlayFault t path f ∨
      ∃ es, (loadOverlay t path).outcome = .ok (.map es) ∧ s.LacksText v es ∧
        f = .value .unwritableInteger := by
    constructor
    · rintro (h | ⟨hload, htext⟩)
      · exact Or.inl h
      · exact Or.inr ⟨_, hload, htext, rfl⟩
    · rintro (h | ⟨es, hload, htext, rfl⟩)
      · exact .reading h
      · exact .naming hload htext
  rw [hcases]
  obtain ⟨g, hg, h⟩ | ⟨hnone, ⟨fault, h⟩ | ⟨es, h⟩⟩ := loadOverlay_cases t path
  · have hunique : OverlayFault t path f ↔ g = f := ⟨hg.unique, fun he => he ▸ hg⟩
    simp [h, hunique]
  · simp [h, hnone]
  · simp only [h, ok_bind, hnone, false_or, Except.ok.injEq, Value.map.injEq, exists_eq_left']
    rw [← addTree_eq_fault]
    cases (s.addTree v (.map es)).failure with
    | none => simp
    | some failure => cases failure <;> simp

/-- A mode is added unless one of its overlays cannot be, after the ones before it have been. -/
theorem addMode_eq_fault {t : FileTree} {s : TypeSource} {strict : Bool} {m : ModeSet}
    {mode : String × List Path} {f : Fault} :
    (addMode t s strict m mode).outcome = .error (.fault f) ↔
      ∃ earlier path later built, mode.2 = earlier ++ path :: later ∧
        (earlier.foldlM (addOverlay t s)
          (VariableSet.empty mode.1 m.typePrefix strict)).outcome = .ok built ∧
        AdditionFault t s built path f := by
  unfold addMode
  simp only [Noted.outcome_bind, bind_eq_error, Noted.foldlM_outcome_eq_error,
    addOverlay_eq_fault]
  constructor
  · intro h
    rcases h with h | ⟨built, -, h⟩
    · exact h
    · exfalso
      split at h
      · simp [Failure.of] at h
      · obtain ⟨e, he⟩ := m.add_error (by simpa using h)
        cases he
  · exact Or.inl

/-- The modes with the first ones of a type added. -/
def added (t : FileTree) (s : TypeSource) (strict : Bool) (modes : List (String × List Path)) :
    Except Failure ModeSet :=
  (modes.foldlM (addMode t s strict) (.empty s.type s.typePrefix.plain .unset)).outcome

/-- The faults that building the modes of a type meets: of an overlay, after all overlays and modes
before it have been added, and of a baseline that cannot be looked up. -/
inductive BuildFault (t : FileTree) (s : TypeSource) (skip : List String) (strict : Bool)
    (baseline : Value) : Fault → Prop where
  | overlay {before after : List (String × List Path)} {mode : String} {earlier later : List Path}
      {path : Path} {m : ModeSet} {built : VariableSet} {f : Fault}
      (hmodes : s.kept skip = before ++ (mode, earlier ++ path :: later) :: after)
      (hbefore : added t s strict before = .ok m)
      (hearlier : (earlier.foldlM (addOverlay t s)
        (VariableSet.empty mode m.typePrefix strict)).outcome = .ok built)
      (hpath : AdditionFault t s built path f) : BuildFault t s skip strict baseline f
  | baseline {m : ModeSet} (hmodes : added t s strict (s.kept skip) = .ok m)
      (hbaseline : baseline.isKey = false) :
      BuildFault t s skip strict baseline (.kind (.notAKey baseline.kind))

theorem build_eq_fault {t : FileTree} {s : TypeSource} {skip : List String} {strict : Bool}
    {baseline : Value} {f : Fault} :
    (s.build t skip strict baseline).outcome = .error (.fault f) ↔
      BuildFault t s skip strict baseline f := by
  unfold build
  simp only [Noted.outcome_bind, Noted.outcome_ofExcept, Noted.outcome_pure, bind_eq_error]
  constructor
  · intro h
    rcases h with h | ⟨m, hm, h | ⟨b, -, h⟩⟩
    · obtain ⟨before, ⟨mode, paths⟩, after, m, hmodes, hbefore, h⟩ :=
        Noted.foldlM_outcome_eq_error.mp h
      obtain ⟨earlier, path, later, built, rfl, hearlier, hpath⟩ := addMode_eq_fault.mp h
      exact .overlay hmodes hbefore hearlier hpath
    · obtain ⟨hkey, he⟩ | ⟨-, b, he⟩ := baselineOf_cases baseline
      · rw [he] at h
        cases h
        exact .baseline hm hkey
      · rw [he] at h
        cases h
    · cases h
  · intro h
    rcases h with ⟨hmodes, hbefore, hearlier, hpath⟩ | ⟨hm, hkey⟩
    · refine Or.inl (Noted.foldlM_outcome_eq_error.mpr ⟨_, _, _, _, hmodes, hbefore, ?_⟩)
      exact addMode_eq_fault.mpr ⟨_, _, _, _, rfl, hearlier, hpath⟩
    · refine Or.inr ⟨_, hm, Or.inl ?_⟩
      obtain ⟨-, he⟩ | ⟨htrue, -⟩ := baselineOf_cases baseline
      · exact he
      · rw [hkey] at htrue
        cases htrue

/-- What building the modes of a type gives is finalized. -/
theorem build_eq_ok {t : FileTree} {s : TypeSource} {skip : List String} {strict : Bool}
    {baseline : Value} {m : ModeSet} (h : (s.build t skip strict baseline).outcome = .ok m) :
    m.finalized = true := by
  unfold build at h
  simp only [Noted.outcome_bind, Noted.outcome_ofExcept, Noted.outcome_pure, bind_eq_ok] at h
  obtain ⟨m', -, b, -, h⟩ := h
  cases h
  unfold ModeSet.finalize
  split
  · assumption
  · rfl

end Faults

/-- The fault that the prefix file of a directory meets: it is there and cannot be read as text. -/
def PrefixFault (t : FileTree) (directory : Path) (f : Fault) : Prop :=
  t.exists? (directory / "prefix") = true ∧ t.readText (directory / "prefix") = .error f

theorem readPrefix_eq_error {t : FileTree} {directory : Path} {failure : Failure} :
    readPrefix t directory = .error failure ↔
      ∃ f, PrefixFault t directory f ∧ failure = .fault f := by
  unfold readPrefix PrefixFault
  cases hexists : t.exists? (directory / "prefix") with
  | false => simp [hexists]
  | true =>
    cases hread : t.readText (directory / "prefix") with
    | error g => simpa [hexists, hread] using eq_comm
    | ok text => simp [hexists, hread]

/-- An index lists modes of which one has a key without a text, behind entries that are in order. -/
def ListsTextless (data : Value) : Prop :=
  ∃ before entry after, listedModes? data = some (before ++ entry :: after) ∧
    (∀ e ∈ before, e.1.hasText = true ∧ ∃ names, overlayNames? e.2 = some names) ∧
    entry.1.hasText = false

section Index

variable {directory index : Path} {type : String} {found found' : List (String × List Path)}

/-- What an entry of an index does: its key has no text, it lists no overlays, or it puts a mode. -/
theorem putListed_cases (directory index : Path) (type : String)
    (found : List (String × List Path)) (entry : Value × Value) :
    (entry.1.hasText = false ∧
      putListed directory index type found entry = .error (.value .unwritableInteger)) ∨
    (entry.1.hasText = true ∧
      ((overlayNames? entry.2 = none ∧
        ∃ e, putListed directory index type found entry = .error (.token e)) ∨
      ∃ names, overlayNames? entry.2 = some names ∧ putListed directory index type found entry =
        .ok (putMode entry.1.plain (names.map (directory / ·)) found))) := by
  obtain ⟨key, v⟩ := entry
  unfold putListed
  cases htext : key.hasText with
  | false => simp [htext]
  | true => cases hv : overlayNames? v <;> simp [htext, hv]

theorem exists_putListed {entries : List (Value × Value)} :
    (∃ found', entries.foldlM (putListed directory index type) found = .ok found') ↔
      ∀ e ∈ entries, e.1.hasText = true ∧ ∃ names, overlayNames? e.2 = some names := by
  induction entries generalizing found with
  | nil => simp [pure, Except.pure]
  | cons entry rest ih =>
    rw [List.foldlM_cons, List.forall_mem_cons]
    rcases putListed_cases directory index type found entry with
      ⟨htext, he⟩ | ⟨htext, ⟨hnames, e, he⟩ | ⟨names, hnames, he⟩⟩
    · simp [he, htext]
    · simp [he, hnames]
    · rw [he, ok_bind, ih]
      simp [htext, hnames]

theorem indexedModes_eq_fault {data : Value} {f : Fault} :
    indexedModes directory index type data = .error (.fault f) ↔
      ListsTextless data ∧ f = .value .unwritableInteger := by
  unfold indexedModes ListsTextless
  cases listedModes? data with
  | none => simp
  | some entries =>
    dsimp only
    rw [foldlM_eq_error]
    constructor
    · rintro ⟨before, entry, after, found, rfl, hbefore, h⟩
      rcases putListed_cases directory index type found entry with
        ⟨htext, he⟩ | ⟨-, ⟨-, e, he⟩ | ⟨names, -, he⟩⟩
      · cases he.symm.trans h
        exact ⟨⟨before, entry, after, rfl, exists_putListed.mp ⟨found, hbefore⟩, htext⟩, rfl⟩
      · cases he.symm.trans h
      · cases he.symm.trans h
    · rintro ⟨⟨before, entry, after, hentries, hbefore, htext⟩, rfl⟩
      obtain ⟨found, hfound⟩ := exists_putListed.mpr hbefore
      refine ⟨before, entry, after, found, Option.some.inj hentries, hfound, ?_⟩
      rcases putListed_cases directory index type found entry with ⟨-, he⟩ | ⟨htrue, -⟩
      · exact he
      · simp [htext] at htrue

end Index

section Sources

variable [Yaml.Library]

/-- The fault that the index of a directory meets: it is there and cannot be read as text, its text
makes the reader of YAML fail in another way than by being malformed, or it lists a mode under a key
without a text. -/
inductive IndexFault (t : FileTree) (directory : Path) : Fault → Prop where
  | bytes {f : Fault} (hexists : t.exists? (directory / "index.yaml") = true)
      (hread : t.readText (directory / "index.yaml") = .error f) : IndexFault t directory f
  | reading {f : Fault} {text : String} (hexists : t.exists? (directory / "index.yaml") = true)
      (htext : t.readText (directory / "index.yaml") = .ok text)
      (hread : Yaml.read false text = .error (.fault f)) : IndexFault t directory f
  | naming {text : String} {data : Value}
      (hexists : t.exists? (directory / "index.yaml") = true)
      (htext : t.readText (directory / "index.yaml") = .ok text)
      (hread : Yaml.read false text = .ok data) (hkey : ListsTextless data) :
      IndexFault t directory (.value .unwritableInteger)

theorem readModes_eq_fault {t : FileTree} {directory : Path} {type : String} {f : Fault}
    (hdir : t.isDirectory directory = true) :
    readModes t directory type = .error (.fault f) ↔ IndexFault t directory f := by
  unfold readModes
  dsimp only
  cases hexists : t.exists? (directory / "index.yaml") with
  | false =>
    obtain ⟨place, hlist⟩ := FileTree.list_of_isDirectory hdir
    rw [if_neg Bool.false_ne_true, hlist]
    refine ⟨nofun, fun h => ?_⟩
    cases h <;> simp_all
  | true =>
    rw [if_pos rfl]
    cases htext : t.readText (directory / "index.yaml") with
    | error g =>
      constructor
      · intro h
        cases h
        exact .bytes hexists htext
      · intro h
        cases h <;> simp_all
    | ok text =>
      simp only [bind_eq_error, readYaml_eq_fault, readYaml_eq_ok, indexedModes_eq_fault]
      constructor
      · rintro (hread | ⟨data, hread, hkey, rfl⟩)
        · exact .reading hexists htext hread
        · exact .naming hexists htext hread hkey
      · intro h
        cases h with
        | bytes _ hbytes => cases htext.symm.trans hbytes
        | reading _ htext' hread =>
          cases htext.symm.trans htext'
          exact Or.inl hread
        | naming _ htext' hread hkey =>
          cases htext.symm.trans htext'
          exact Or.inr ⟨_, hread, hkey, rfl⟩

/-- The fault that reading the sources of a type meets: of its prefix file, if no prefix is given,
or of its index. -/
def SourceFault (t : FileTree) (directory : Path) (given : Option Value) (f : Fault) : Prop :=
  (given = none ∧ PrefixFault t directory f) ∨ IndexFault t directory f

/-- The sources in a directory with a prefix and modes, and the ledgers that are there. -/
def inDirectory (t : FileTree) (directory : Path) (typePrefix : Value)
    (modes : List (String × List Path)) : TypeSource :=
  let present (name : String) :=
    if t.exists? (directory / name) then some (directory / name) else none
  ⟨directory.name, typePrefix, directory, modes, present "deprecated.json", present "removed.json"⟩

theorem read_outcome (t : FileTree) (directory : Path) (given : Option Value) :
    (read t directory given).outcome =
      (match given with
        | some v => .ok v
        | none => (readPrefix t directory).map .text) >>= fun typePrefix =>
      (readModes t directory directory.name).map (inDirectory t directory typePrefix) := by
  unfold read
  dsimp only
  cases given with
  | none =>
    cases readPrefix t directory with
    | error failure => rfl
    | ok typePrefix =>
      cases readModes t directory directory.name with
      | error failure => rfl
      | ok modes => cases modes <;> rfl
  | some v =>
    cases readModes t directory directory.name with
    | error failure => rfl
    | ok modes => cases modes <;> rfl

/-- Sources that are read are those of a directory with the modes that are found there. -/
theorem exists_inDirectory {t : FileTree} {directory : Path} {given : Option Value} {s : TypeSource}
    (h : (read t directory given).outcome = .ok s) :
    ∃ typePrefix modes, readModes t directory directory.name = .ok modes ∧
      s = inDirectory t directory typePrefix modes := by
  rw [read_outcome, bind_eq_ok] at h
  obtain ⟨typePrefix, -, h⟩ := h
  obtain ⟨modes, hmodes, rfl⟩ := map_eq_ok.mp h
  exact ⟨typePrefix, modes, hmodes, rfl⟩

theorem read_cases (t : FileTree) (directory : Path) (given : Option Value)
    (hdir : t.isDirectory directory = true) :
    (∃ f, SourceFault t directory given f ∧
      (read t directory given).outcome = .error (.fault f)) ∨
    ((∀ f, ¬ SourceFault t directory given f) ∧
      ((∃ e, (read t directory given).outcome = .error (.token e)) ∨
        ∃ s, s.type = directory.name ∧ (read t directory given).outcome = .ok s)) := by
  rw [read_outcome]
  unfold SourceFault
  have hmodes : ∀ typePrefix : Value,
      (∃ f, IndexFault t directory f ∧
        (readModes t directory directory.name).map (inDirectory t directory typePrefix) =
          .error (.fault f)) ∨
      ((∀ f, ¬ IndexFault t directory f) ∧
        ((∃ e, (readModes t directory directory.name).map (inDirectory t directory typePrefix) =
          .error (.token e)) ∨
        ∃ s, s.type = directory.name ∧
          (readModes t directory directory.name).map (inDirectory t directory typePrefix) =
            .ok s)) := by
    intro typePrefix
    have hfault : ∀ f, IndexFault t directory f ↔
        readModes t directory directory.name = .error (.fault f) :=
      fun f => (readModes_eq_fault hdir).symm
    simp only [hfault]
    cases readModes t directory directory.name with
    | ok modes => exact Or.inr ⟨by simp, Or.inr ⟨_, rfl, rfl⟩⟩
    | error failure =>
      cases failure with
      | token e => exact Or.inr ⟨by simp, Or.inl ⟨e, rfl⟩⟩
      | fault f => exact Or.inl ⟨f, rfl, rfl⟩
  cases given with
  | some v => simpa using hmodes v
  | none =>
    cases hfile : readPrefix t directory with
    | error failure =>
      obtain ⟨f, hf, rfl⟩ := readPrefix_eq_error.mp hfile
      exact Or.inl ⟨f, Or.inl ⟨rfl, hf⟩, rfl⟩
    | ok typePrefix =>
      have hnone : ∀ f, ¬ PrefixFault t directory f := by
        intro f hf
        have := readPrefix_eq_error.mpr ⟨f, hf, rfl⟩
        simp [hfile] at this
      simpa [hnone, Except.map] using hmodes (.text typePrefix)

end Sources

end TypeSource

end DesignTokens
