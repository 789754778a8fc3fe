import DesignTokens.Manifest
import DesignTokens.Proofs.Entries
import DesignTokens.Proofs.Escaping
import DesignTokens.Proofs.Overlong

/-! What loading a manifest can come to. It gives a manifest or a manifest error, unless a fault
escapes: bytes that are no text, an integer of too many digits, or a document of the wrong shape,
which has something other than a table, a row or a text where one belongs. A limit on how deep a
document may nest is not part of this. -/
namespace DesignTokens

open Toml (Entries)

theorem Text.cutAt?_eq_some {sep : Char} {s before after : List Char} :
    cutAt? sep s = some (before, after) ↔ s = before ++ sep :: after ∧ sep ∉ before := by
  induction s generalizing before with
  | nil => simp [cutAt?]
  | cons c rest ih =>
    rw [cutAt?]
    by_cases hc : c = sep
    · subst hc
      rw [if_pos rfl]
      cases before with
      | nil => simp [eq_comm]
      | cons d before => simp; tauto
    · rw [if_neg hc]
      cases before with
      | nil => simp [hc]
      | cons d before =>
        have hmap : (cutAt? sep rest).map (fun pair => (c :: pair.1, pair.2)) =
            some (d :: before, after) ↔ cutAt? sep rest = some (before, after) ∧ c = d := by
          cases cutAt? sep rest with
          | none => simp
          | some pair => simp [Prod.ext_iff]; tauto
        rw [hmap, ih]
        grind

namespace SkipRule

/-- The rule that a text spells: its type and its mode, with the first slash between them. -/
inductive Spells (s : String) : SkipRule → Prop where
  | intro {type mode : List Char} (htext : Text.strip s.toList = type ++ '/' :: mode)
      (htype : type ≠ []) (hslash : '/' ∉ type) (hmode : mode ≠ []) :
      Spells s ⟨String.ofList type, String.ofList mode⟩

theorem Spells.read_eq {s : String} {rule : SkipRule} (h : Spells s rule) : read s = .ok rule := by
  cases h with
  | @intro type mode htext htype hslash hmode =>
    obtain ⟨c, type, rfl⟩ := List.exists_cons_of_ne_nil htype
    obtain ⟨d, mode, rfl⟩ := List.exists_cons_of_ne_nil hmode
    rw [read, Text.cutAt?_eq_some.mpr ⟨htext, hslash⟩]

theorem read_cases (s : String) :
    (∃ rule, Spells s rule ∧ read s = .ok rule) ∨
      (∀ rule, ¬ Spells s rule) ∧ read s = .error (.of (.manifest (.invalidSkipRule s))) := by
  by_cases hspells : ∃ rule, Spells s rule
  · obtain ⟨rule, hrule⟩ := hspells
    exact Or.inl ⟨rule, hrule, hrule.read_eq⟩
  · refine Or.inr ⟨not_exists.mp hspells, ?_⟩
    unfold read
    split
    · next hcut =>
      obtain ⟨htext, hslash⟩ := Text.cutAt?_eq_some.mp hcut
      exact absurd ⟨_, .intro htext (List.cons_ne_nil _ _) hslash (List.cons_ne_nil _ _)⟩ hspells
    · rfl

theorem exists_spells_of_read {s : String} {rule : SkipRule} (h : read s = .ok rule) :
    ∃ rule, Spells s rule := by
  rcases read_cases s with ⟨rule, hrule, -⟩ | ⟨-, herror⟩
  · exact ⟨rule, hrule⟩
  · cases herror.symm.trans h

theorem read_eq_error {s : String} {f : Failure} (h : read s = .error f) :
    f = .of (.manifest (.invalidSkipRule s)) ∧ ∀ rule, ¬ Spells s rule := by
  rcases read_cases s with ⟨rule, -, hok⟩ | ⟨hnone, herror⟩
  · cases hok.symm.trans h
  · exact ⟨(Except.error.inj (herror.symm.trans h)).symm, hnone⟩

/-- An item of the rules in the environment that is not blank. -/
def IsOffered (environment : Option String) (item : String) : Prop :=
  ∃ rules, environment = some rules ∧ item ∈ Text.splitOn ',' rules ∧ Text.stripText item ≠ ""

theorem mem_items {rules item : String} :
    item ∈ (Text.splitOn ',' rules).filter (fun item => Text.stripText item != "") ↔
      IsOffered (some rules) item := by
  simp [IsOffered]

theorem exists_spells_of_environment {environment : Option String} {rules : List SkipRule}
    (h : ofEnvironment environment = .ok rules) {item : String}
    (hitem : IsOffered environment item) : ∃ rule, Spells item rule := by
  cases environment with
  | none =>
    obtain ⟨_, hnone, -⟩ := hitem
    cases hnone
  | some text =>
    have hread := exists_mapM_eq_ok.mp ⟨rules, h⟩ item (mem_items.mpr hitem)
    obtain ⟨rule, hrule⟩ := hread
    exact exists_spells_of_read hrule

theorem ofEnvironment_eq_error {environment : Option String} {f : Failure}
    (h : ofEnvironment environment = .error f) :
    ∃ item, IsOffered environment item ∧ f = .of (.manifest (.invalidSkipRule item)) ∧
      ∀ rule, ¬ Spells item rule := by
  cases environment with
  | none => cases h
  | some text =>
    obtain ⟨item, hitem, hread⟩ := mapM_eq_error h
    exact ⟨item, mem_items.mp hitem, read_eq_error hread⟩

end SkipRule

namespace Manifest

/-- The items of a value that has some: those of a row, the keys of a table, the characters of a
text. -/
inductive Items : Value → List Value → Prop where
  | list (xs : List Value) : Items (.list xs) xs
  | map (es : Entries) : Items (.map es) (es.map (·.1))
  | text (s : String) : Items (.text s) (s.toList.map fun c => .text (String.singleton c))

/-- A setting of the build that a document holds. -/
def Setting (es : Entries) (key : String) (v : Value) : Prop :=
  ∃ build, Value.entry? "build" es = some (.map build) ∧ Value.entry? key build = some v

/-- The faults of the shape of a document: a part that is no table, settings of a type that are no
table, formats or rules that are no row, and a format or a rule that is no text. -/
inductive Misshapen (es : Entries) : Fault → Prop where
  | part {key : String} {v : Value} (hkey : key ∈ ["build", "project", "types"])
      (hv : Value.entry? key es = some v) (hshape : ∀ inner, v ≠ .map inner) :
      Misshapen es .noSuchPart
  | settings {types : Entries} {k v : Value} (htypes : Value.entry? "types" es = some (.map types))
      (hv : (k, v) ∈ types) (hshape : ∀ inner, v ≠ .map inner) : Misshapen es .noSuchPart
  | row {key : String} {v : Value} (hkey : key ∈ ["formats", "skip"]) (hv : Setting es key v)
      (hshape : ∀ items, ¬ Items v items) : Misshapen es (.kind (.unsuitable v.kind))
  | format {v item : Value} {items : List Value} (hv : Setting es "formats" v)
      (hitems : Items v items) (hitem : item ∈ items) (hshape : ∀ s, item ≠ .text s) :
      Misshapen es (.kind (.unsuitable item.kind))
  | rule {v item : Value} {items : List Value} (hv : Setting es "skip" v) (hitems : Items v items)
      (hitem : item ∈ items) (hshape : ∀ s, item ≠ .text s) : Misshapen es .noSuchPart

/-- What is wrong with a document of the right shape: formats that are not known, and texts that
spell no rule, in the document or in the environment. -/
inductive Invalid (path : Path) (environment : Option String) (es : Entries) :
    ManifestFault → Prop where
  | formats {v : Value} {items : List Value} {names : List String} (hv : Setting es "formats" v)
      (hitems : Items v items)
      (hnames : names.map Value.text = items.filter fun item => (formatOf? item).isNone)
      (hne : names ≠ []) : Invalid path environment es (.unsupportedFormats path names)
  | rule {v : Value} {items : List Value} {s : String} (hv : Setting es "skip" v)
      (hitems : Items v items) (hitem : .text s ∈ items)
      (hrule : ∀ rule, ¬ SkipRule.Spells s rule) :
      Invalid path environment es (.invalidSkipRule s)
  | environment {s : String} (hitem : SkipRule.IsOffered environment s)
      (hrule : ∀ rule, ¬ SkipRule.Spells s rule) :
      Invalid path environment es (.invalidSkipRule s)

/-- Whether a failure is one of what is wrong with a document. -/
def IsProblem (path : Path) (environment : Option String) (es : Entries) : Failure → Prop
  | .fault f => Misshapen es f
  | .token e => ∃ fault, e = ⟨.manifest fault, none⟩ ∧ Invalid path environment es fault

theorem table_eq_ok {v : Value} {es : Entries} : table v = .ok es ↔ v = .map es := by
  cases v <;> simp [table]

theorem table_eq_error {v : Value} {f : Failure} :
    table v = .error f ↔ f = .fault .noSuchPart ∧ ∀ es, v ≠ .map es := by
  cases v <;> simp [table, eq_comm]

theorem subtable_eq_ok {key : String} {es inner : Entries} :
    subtable key es = .ok inner ↔ Value.entry? key es = some (.map inner) ∨
      Value.entry? key es = none ∧ inner = [] := by
  unfold subtable
  rw [table_eq_ok]
  cases Value.entry? key es <;> simp [eq_comm]

theorem subtable_eq_error {key : String} {es : Entries} {f : Failure}
    (h : subtable key es = .error f) :
    f = .fault .noSuchPart ∧ ∃ v, Value.entry? key es = some v ∧ ∀ inner, v ≠ .map inner := by
  obtain ⟨rfl, hshape⟩ := table_eq_error.mp h
  cases hentry : Value.entry? key es with
  | none => simp [hentry] at hshape
  | some v => exact ⟨rfl, v, rfl, by simpa [hentry] using hshape⟩

theorem itemsOf_eq_ok {v : Value} {items : List Value} : itemsOf v = .ok items ↔ Items v items := by
  constructor
  · intro h
    cases v <;> cases h <;> constructor
  · intro h
    cases h <;> rfl

theorem itemsOf_eq_error {v : Value} {f : Failure} (h : itemsOf v = .error f) :
    f = .kind (.unsuitable v.kind) ∧ ∀ items, ¬ Items v items := by
  have hshape : ∀ items, ¬ Items v items := by
    intro items hitems
    cases (itemsOf_eq_ok.mpr hitems).symm.trans h
  refine ⟨?_, hshape⟩
  cases v <;> first | exact (Except.error.inj h).symm | cases h

theorem textOf_eq_ok {v : Value} {s : String} : textOf v = .ok s ↔ v = .text s := by
  cases v <;> simp [textOf]

theorem textOf_eq_error {v : Value} {f : Failure} (h : textOf v = .error f) :
    f = .kind (.unsuitable v.kind) ∧ ∀ s, v ≠ .text s := by
  cases v <;> first | exact ⟨(Except.error.inj h).symm, nofun⟩ | cases h

theorem formatOf?_of_not_text {v : Value} (h : ∀ s, v ≠ .text s) : formatOf? v = none := by
  cases v with
  | text s => exact absurd rfl (h s)
  | _ => rfl

section Document

variable {path : Path} {environment : Option String} {es build : Entries}

theorem Setting.intro {key : String} {v : Value} (hbuild : subtable "build" es = .ok build)
    (hv : Value.entry? key build = some v) : Setting es key v := by
  rcases subtable_eq_ok.mp hbuild with h | ⟨-, rfl⟩
  · exact ⟨build, h, hv⟩
  · cases hv

theorem Setting.entry {key : String} {v : Value} (h : Setting es key v)
    (hbuild : subtable "build" es = .ok build) : Value.entry? key build = some v := by
  obtain ⟨inner, hinner, hv⟩ := h
  rcases subtable_eq_ok.mp hbuild with h | ⟨h, -⟩
  · cases hinner.symm.trans h
    exact hv
  · cases hinner.symm.trans h

theorem texts_of_mapM {items : List Value} {names : List String}
    (h : items.mapM textOf = .ok names) : names.map Value.text = items := by
  induction mapM_eq_ok.mp h with
  | nil => rfl
  | cons hx _ ih => rw [List.map_cons, ← textOf_eq_ok.mp hx, ih (mapM_eq_ok.mpr ‹_›)]

theorem formatsIn_fails (hbuild : subtable "build" es = .ok build) :
    FailsWith (IsProblem path environment es) (formatsIn path build) := by
  unfold formatsIn
  split
  · next v hv =>
    have hsetting := Setting.intro hbuild hv
    intro f h
    rcases bind_eq_error.mp h with h | ⟨items, hitems, h⟩
    · obtain ⟨rfl, hshape⟩ := itemsOf_eq_error h
      exact .row (by simp) hsetting hshape
    have hitems := itemsOf_eq_ok.mp hitems
    split at h
    · cases h
    · next unknown hunknown =>
      rcases bind_eq_error.mp h with h | ⟨names, hnames, h⟩
      · obtain ⟨item, hitem, h⟩ := mapM_eq_error h
        obtain ⟨rfl, hshape⟩ := textOf_eq_error h
        exact .format hsetting hitems (List.mem_of_mem_filter hitem) hshape
      · cases h
        have htexts := texts_of_mapM hnames
        refine ⟨_, rfl, .formats hsetting hitems htexts ?_⟩
        rintro rfl
        exact hunknown htexts.symm
  · exact failsWith_ok _

theorem rulesIn_fails (hbuild : subtable "build" es = .ok build) :
    FailsWith (IsProblem path environment es) (rulesIn build) := by
  intro f h
  unfold rulesIn at h
  cases hv : Value.entry? "skip" build with
  | none =>
    rw [hv] at h
    cases h
  | some v =>
    have hsetting := Setting.intro hbuild hv
    rw [hv] at h
    rcases bind_eq_error.mp h with h | ⟨items, hitems, h⟩
    · obtain ⟨rfl, hshape⟩ := itemsOf_eq_error h
      exact .row (by simp) hsetting hshape
    have hitems := itemsOf_eq_ok.mp hitems
    obtain ⟨item, hitem, h⟩ := mapM_eq_error h
    unfold ruleOf at h
    split at h
    · obtain ⟨rfl, hrule⟩ := SkipRule.read_eq_error h
      exact ⟨_, rfl, .rule hsetting hitems hitem hrule⟩
    · next hshape =>
      cases h
      exact .rule hsetting hitems hitem hshape

theorem ofEnvironment_fails :
    FailsWith (IsProblem path environment es) (SkipRule.ofEnvironment environment) := by
  intro f h
  obtain ⟨item, hitem, rfl, hrule⟩ := SkipRule.ofEnvironment_eq_error h
  exact ⟨_, rfl, .environment hitem hrule⟩

theorem subtable_fails {key : String} (hkey : key ∈ ["build", "project", "types"]) :
    FailsWith (IsProblem path environment es) (subtable key es) := by
  intro f h
  obtain ⟨rfl, v, hv, hshape⟩ := subtable_eq_error h
  exact .part hkey hv hshape

theorem typesIn_fails : FailsWith (IsProblem path environment es) (typesIn es) := by
  apply (subtable_fails (by simp)).bind
  intro types htypes
  apply FailsWith.mapM
  intro e he f h
  rcases bind_eq_error.mp h with h | ⟨_, -, h⟩
  · rcases bind_eq_error.mp h with h | ⟨_, -, h⟩
    · obtain ⟨rfl, hshape⟩ := table_eq_error.mp h
      rcases subtable_eq_ok.mp htypes with htypes | ⟨-, rfl⟩
      · exact .settings htypes he hshape
      · cases he
    · cases h
  · cases h

/-- Whatever a document fails with is one of what is wrong with it. -/
theorem ofDocument_fails :
    FailsWith (IsProblem path environment es) (ofDocument path environment (.map es)) := by
  have htable : table (.map es) = .ok es := rfl
  rw [ofDocument, htable, ok_bind]
  apply (subtable_fails (by simp)).bind
  intro build hbuild
  apply (formatsIn_fails hbuild).bind
  intro formats _
  apply (rulesIn_fails hbuild).bind
  intro rules _
  apply ofEnvironment_fails.bind
  intro more _
  apply typesIn_fails.bind
  intro types _
  apply (subtable_fails (by simp)).bind
  intro project _
  exact failsWith_pure _

theorem Items.unique {v : Value} {items items' : List Value} (h : Items v items)
    (h' : Items v items') : items = items' :=
  Except.ok.inj ((itemsOf_eq_ok.mpr h).symm.trans (itemsOf_eq_ok.mpr h'))

theorem known_of_formatsIn {formats : List OutputFormat} {v : Value}
    (hbuild : subtable "build" es = .ok build) (h : formatsIn path build = .ok formats)
    (hv : Setting es "formats" v) :
    ∃ items, Items v items ∧ ∀ item ∈ items, (formatOf? item).isNone = false := by
  rw [formatsIn, hv.entry hbuild] at h
  obtain ⟨items, hitems, h⟩ := bind_eq_ok.mp h
  refine ⟨items, itemsOf_eq_ok.mp hitems, ?_⟩
  split at h
  · next hknown =>
    intro item hitem
    exact Bool.eq_false_iff.mpr (List.filter_eq_nil_iff.mp hknown item hitem)
  · obtain ⟨names, -, h⟩ := bind_eq_ok.mp h
    cases h

theorem spells_of_rulesIn {rules : List SkipRule} {v : Value}
    (hbuild : subtable "build" es = .ok build) (h : rulesIn build = .ok rules)
    (hv : Setting es "skip" v) :
    ∃ items, Items v items ∧ ∀ item ∈ items, ∃ s rule, item = .text s ∧ SkipRule.Spells s rule := by
  rw [rulesIn, hv.entry hbuild] at h
  obtain ⟨items, hitems, h⟩ := bind_eq_ok.mp h
  refine ⟨items, itemsOf_eq_ok.mp hitems, ?_⟩
  intro item hitem
  obtain ⟨rule, hrule⟩ := exists_mapM_eq_ok.mp ⟨rules, h⟩ item hitem
  unfold ruleOf at hrule
  split at hrule
  · next s =>
    obtain ⟨spelled, hspelled⟩ := SkipRule.exists_spells_of_read hrule
    exact ⟨s, spelled, rfl, hspelled⟩
  · cases hrule

theorem tables_of_typesIn {settings : List (String × TypeSettings)} {types : Entries}
    (h : typesIn es = .ok settings) (htypes : Value.entry? "types" es = some (.map types)) :
    ∀ e ∈ types, ∃ inner, e.2 = .map inner := by
  obtain ⟨found, hfound, h⟩ := bind_eq_ok.mp h
  obtain rfl : types = found := by
    rcases subtable_eq_ok.mp hfound with hfound | ⟨hfound, -⟩
    · cases htypes.symm.trans hfound
      rfl
    · cases htypes.symm.trans hfound
  intro e he
  obtain ⟨row, hrow⟩ := exists_mapM_eq_ok.mp ⟨settings, h⟩ e he
  obtain ⟨_, hsettings, -⟩ := bind_eq_ok.mp hrow
  obtain ⟨inner, hinner, -⟩ := bind_eq_ok.mp hsettings
  exact ⟨inner, table_eq_ok.mp hinner⟩

/-- The steps by which a document gives a manifest. -/
structure Steps (path : Path) (environment : Option String) (es : Entries) where
  build : Entries
  project : Entries
  formats : List OutputFormat
  rules : List SkipRule
  more : List SkipRule
  types : List (String × TypeSettings)
  hbuild : subtable "build" es = .ok build
  hformats : formatsIn path build = .ok formats
  hrules : rulesIn build = .ok rules
  hmore : SkipRule.ofEnvironment environment = .ok more
  htypes : typesIn es = .ok types
  hproject : subtable "project" es = .ok project

theorem nonempty_steps {m : Manifest} (h : ofDocument path environment (.map es) = .ok m) :
    Nonempty (Steps path environment es) := by
  obtain ⟨inner, hinner, h⟩ := bind_eq_ok.mp h
  cases hinner
  obtain ⟨build, hbuild, h⟩ := bind_eq_ok.mp h
  obtain ⟨formats, hformats, h⟩ := bind_eq_ok.mp h
  obtain ⟨rules, hrules, h⟩ := bind_eq_ok.mp h
  obtain ⟨more, hmore, h⟩ := bind_eq_ok.mp h
  obtain ⟨types, htypes, h⟩ := bind_eq_ok.mp h
  obtain ⟨project, hproject, -⟩ := bind_eq_ok.mp h
  exact ⟨⟨build, project, formats, rules, more, types, hbuild, hformats, hrules, hmore, htypes,
    hproject⟩⟩

namespace Steps

theorem exists_subtable (steps : Steps path environment es) {key : String}
    (hkey : key ∈ ["build", "project", "types"]) : ∃ inner, subtable key es = .ok inner := by
  simp only [List.mem_cons, List.not_mem_nil, or_false] at hkey
  rcases hkey with rfl | rfl | rfl
  · exact ⟨_, steps.hbuild⟩
  · exact ⟨_, steps.hproject⟩
  · obtain ⟨types, htypes, -⟩ := bind_eq_ok.mp steps.htypes
    exact ⟨types, htypes⟩

theorem not_misshapen (steps : Steps path environment es) (f : Fault) : ¬ Misshapen es f := by
  intro h
  cases h with
  | part hkey hv hshape =>
    obtain ⟨inner, hinner⟩ := steps.exists_subtable hkey
    rcases subtable_eq_ok.mp hinner with hinner | ⟨hinner, -⟩
    · exact hshape inner (Option.some.inj (hv.symm.trans hinner))
    · cases hv.symm.trans hinner
  | settings htypes hv hshape =>
    obtain ⟨inner, hinner⟩ := tables_of_typesIn steps.htypes htypes _ hv
    exact hshape inner hinner
  | row hkey hv hshape =>
    simp only [List.mem_cons, List.not_mem_nil, or_false] at hkey
    rcases hkey with rfl | rfl
    · obtain ⟨items, hitems, -⟩ := known_of_formatsIn steps.hbuild steps.hformats hv
      exact hshape items hitems
    · obtain ⟨items, hitems, -⟩ := spells_of_rulesIn steps.hbuild steps.hrules hv
      exact hshape items hitems
  | format hv hitems hitem hshape =>
    obtain ⟨items, hfound, hknown⟩ := known_of_formatsIn steps.hbuild steps.hformats hv
    have hsome := hknown _ (hitems.unique hfound ▸ hitem)
    rw [formatOf?_of_not_text hshape] at hsome
    cases hsome
  | rule hv hitems hitem hshape =>
    obtain ⟨items, hfound, hspells⟩ := spells_of_rulesIn steps.hbuild steps.hrules hv
    obtain ⟨s, -, htext, -⟩ := hspells _ (hitems.unique hfound ▸ hitem)
    exact hshape s htext

theorem not_invalid (steps : Steps path environment es) (fault : ManifestFault) :
    ¬ Invalid path environment es fault := by
  intro h
  cases h with
  | formats hv hitems hnames hne =>
    obtain ⟨items, hfound, hknown⟩ := known_of_formatsIn steps.hbuild steps.hformats hv
    obtain rfl := hitems.unique hfound
    have hnil := hnames.trans (List.filter_eq_nil_iff.mpr fun item hitem => by
      simp [hknown item hitem])
    exact hne (List.map_eq_nil_iff.mp hnil)
  | rule hv hitems hitem hrule =>
    obtain ⟨items, hfound, hspells⟩ := spells_of_rulesIn steps.hbuild steps.hrules hv
    obtain ⟨s, rule, htext, hspelled⟩ := hspells _ (hitems.unique hfound ▸ hitem)
    cases htext
    exact hrule rule hspelled
  | environment hitem hrule =>
    obtain ⟨rule, hspelled⟩ := SkipRule.exists_spells_of_environment steps.hmore hitem
    exact hrule rule hspelled

end Steps

/-- A document gives a manifest exactly if nothing is wrong with it. -/
theorem exists_ofDocument_eq_ok : (∃ m, ofDocument path environment (.map es) = .ok m) ↔
    (∀ f, ¬ Misshapen es f) ∧ ∀ fault, ¬ Invalid path environment es fault := by
  constructor
  · intro h
    obtain ⟨m, h⟩ := h
    obtain ⟨steps⟩ := nonempty_steps h
    exact ⟨steps.not_misshapen, steps.not_invalid⟩
  · intro h
    cases hdocument : ofDocument path environment (.map es) with
    | ok m => exact ⟨m, rfl⟩
    | error failure =>
      have hproblem := ofDocument_fails failure hdocument
      cases failure with
      | fault f => exact absurd hproblem (h.1 f)
      | token e =>
        obtain ⟨fault, -, hfault⟩ := hproblem
        exact absurd hfault (h.2 fault)

end Document

section Loading

variable {t : FileTree} {path : Path} {text : String}

theorem load_of_readText (environment : Option String) (h : t.readText path = .ok text) :
    load t path environment = match Toml.read text with
    | .ok document => ofDocument path environment document
    | .error .malformed => .error (.of (.manifest (.invalidToml path)))
    | .error (.tooLong digits) => .error (.value (.notAnInteger 10 digits)) := by
  rw [load, h, Except.mapError, ok_bind]
  rfl

theorem load_of_readText_error (environment : Option String) {f : Fault}
    (h : t.readText path = .error f) :
    load t path environment = .error (readFailure path f) := by
  rw [load, h, Except.mapError, error_bind]

theorem load_token {environment : Option String} {e : TokenError}
    (h : load t path environment = .error (.token e)) :
    ∃ fault, e = ⟨.manifest fault, none⟩ := by
  cases hread : t.readText path with
  | error f =>
    rw [load_of_readText_error environment hread] at h
    cases f with
    | file fault =>
      cases h
      exact ⟨_, rfl⟩
    | _ => cases h
  | ok text =>
    rw [load_of_readText environment hread] at h
    split at h
    · next document hdocument =>
      obtain ⟨es, rfl⟩ := Toml.exists_of_read hdocument
      obtain ⟨fault, hfault, -⟩ := ofDocument_fails _ h
      exact ⟨fault, hfault⟩
    · cases h
      exact ⟨_, rfl⟩
    · cases h

end Loading

/-- What loading a manifest comes to, whatever the bytes of its file are: a manifest, or an error of
the manifest, unless a fault escapes. Bytes that are no text escape, and so does an integer with
more digits than one may have, which the text then holds. A document gives a manifest exactly if its
shape is right, its formats are known and its rules are spelled well; a fault that it fails with is
one of its shape, and an error one of its formats or rules. No limit on how deep the document nests
is counted. -/
theorem load_escapes (t : FileTree) (path : Path) (environment : Option String) :
    (∀ e, load t path environment = .error (.token e) → ∃ fault, e = ⟨.manifest fault, none⟩) ∧
    (∀ fault, t.read path = .error (.file fault) →
      load t path environment = .error (.of (.manifest (.unreadable path fault)))) ∧
    ∀ bytes, t.read path = .ok bytes →
      (Text.decode? bytes = none → load t path environment = .error (.fault .undecodable)) ∧
      ∀ text, Text.decode? bytes = some text →
        (Toml.read text = .error .malformed →
          load t path environment = .error (.of (.manifest (.invalidToml path)))) ∧
        (∀ digits, Toml.read text = .error (.tooLong digits) →
          load t path environment = .error (.value (.notAnInteger 10 digits)) ∧
            (Toml.Stop.tooLong digits).IsMetIn text.toList) ∧
        ∀ document, Toml.read text = .ok document → ∃ es, document = .map es ∧
          ((∃ m, load t path environment = .ok m) ↔
            (∀ f, ¬ Misshapen es f) ∧ ∀ fault, ¬ Invalid path environment es fault) ∧
          (∀ f, load t path environment = .error (.fault f) → Misshapen es f) ∧
          ∀ e, load t path environment = .error (.token e) →
            ∃ fault, e = ⟨.manifest fault, none⟩ ∧ Invalid path environment es fault := by
  refine ⟨fun e => load_token, ?_, ?_⟩
  · intro fault hfault
    have hread : t.readText path = .error (.file fault) := by
      rw [FileTree.readText, hfault, error_bind]
    exact load_of_readText_error environment hread
  intro bytes hbytes
  have hreadText := readText_of_decode hbytes
  refine ⟨?_, ?_⟩
  · intro hdecode
    rw [hdecode] at hreadText
    exact load_of_readText_error environment hreadText
  intro text hdecode
  rw [hdecode] at hreadText
  have hload := load_of_readText environment hreadText
  refine ⟨?_, ?_, ?_⟩
  · intro hstop
    rw [hload, hstop]
  · intro digits hstop
    refine ⟨?_, Toml.read_stops text _ hstop⟩
    rw [hload, hstop]
  · intro document hdocument
    obtain ⟨es, rfl⟩ := Toml.exists_of_read hdocument
    rw [hdocument] at hload
    rw [hload]
    exact ⟨es, rfl, exists_ofDocument_eq_ok, fun f => ofDocument_fails (.fault f),
      fun e => ofDocument_fails (.token e)⟩

/-- A tree with a manifest alone. -/
def treeOf (bytes : ByteArray) : FileTree := ⟨[(["tokens.toml"], .file bytes)]⟩

/-- The fault that loading the single manifest comes to, if it does. -/
def faultOf? (bytes : ByteArray) : Option Fault :=
  match load (treeOf bytes) ⟨"/", ["tokens.toml"]⟩ none with
  | .error (.fault f) => some f
  | _ => none

/-- A rule that is a number, formats that are one, types that are a text and a byte that is no text
escape, so loading a manifest may neither give one nor fail with an error of the manifest. -/
theorem load_unblamed :
    faultOf? "[build]\nskip = [3]\n".toUTF8 = some .noSuchPart ∧
    faultOf? "[build]\nformats = 3\n".toUTF8 = some (.kind (.unsuitable "int")) ∧
    faultOf? "types = 'colors'\n".toUTF8 = some .noSuchPart ∧
    faultOf? ⟨#[0xff]⟩ = some .undecodable ∧
    ¬ ∀ (t : FileTree) (path : Path) (environment : Option String),
      (∃ m, load t path environment = .ok m) ∨
        ∃ fault, load t path environment = .error (.token ⟨.manifest fault, none⟩) := by
  have hfault : faultOf? "[build]\nskip = [3]\n".toUTF8 = some .noSuchPart := by decide +kernel
  refine ⟨hfault, by decide +kernel, by decide +kernel, by decide +kernel, ?_⟩
  intro h
  unfold faultOf? at hfault
  rcases h (treeOf _) ⟨"/", ["tokens.toml"]⟩ none with ⟨m, hok⟩ | ⟨fault, herror⟩
  · rw [hok] at hfault
    cases hfault
  · rw [herror] at hfault
    cases hfault

end Manifest

end DesignTokens
