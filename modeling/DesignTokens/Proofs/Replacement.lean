import DesignTokens.Ledger
import DesignTokens.Proofs.Parity
import DesignTokens.Proofs.Splitting

/-! What validation tells of a ledger. Rules say which issues an entry gives rise to: one about its
own name, then some about each target of its replacement. The list of a ledger's issues is the only
one that the rules admit, and it is empty only if each replacement leads to a variable from which
nothing leads on. -/
namespace DesignTokens.Ledger

/-- Some mode of the type defines the variable that a ledger names without its prefix. -/
def Defined (m : ModeSet) (dotted : String) : Prop :=
  ∃ mode ∈ m.modes, ∃ v ∈ mode.2.toList, v.name = m.typePrefix ++ "-" ++ dotted

/-- A ledger has an entry for a name. -/
def Lists (l : Ledger) (name : String) : Prop := ∃ replacement, (name, replacement) ∈ l

/-- A name that is deprecated has to be defined, one that is removed must not be. -/
def Fits (m : ModeSet) (kind : LedgerKind) (subject : String) : Prop :=
  match kind with
  | .deprecated => Defined m subject
  | .removed => ¬ Defined m subject

/-- The targets of a replacement: none for nothing, the items of a row, or the value itself. -/
inductive Targets : Value → List Value → Prop where
  | nothing : Targets .null []
  | list (xs : List Value) : Targets (.list xs) xs
  | tuple (xs : List Value) : Targets (.tuple xs) xs
  | single {v : Value} (hnull : v ≠ .null) (hlist : ∀ xs, v ≠ .list xs)
      (htuple : ∀ xs, v ≠ .tuple xs) : Targets v [v]

/-- One entry of a ledger names another name as a target. -/
def Leads (l : Ledger) (name target : String) : Prop :=
  ∃ replacement targets, (name, replacement) ∈ l ∧ Targets replacement targets ∧
    .text target ∈ targets

section Rules

variable (l : Ledger) (m : ModeSet) (source : String)

/-- The issues about the name of an entry. -/
inductive SubjectReport (subject : String) : LedgerKind → List Issue → Prop where
  | fits {kind : LedgerKind} (h : Fits m kind subject) : SubjectReport subject kind []
  | stale (h : ¬ Fits m .deprecated subject) :
      SubjectReport subject .deprecated [⟨.staleDeprecation, subject, .null, source⟩]
  | defined (h : ¬ Fits m .removed subject) :
      SubjectReport subject .removed [⟨.invalidRemoval, subject, .null, source⟩]

/-- The issues about one target of an entry. Whether it is defined and whether it is listed are
independent of each other. -/
inductive TargetReport (subject : String) : Value → List Issue → Prop where
  | foreign {v : Value} (h : ∀ t, v ≠ .text t) :
      TargetReport subject v [⟨.invalidTarget, subject, v, source⟩]
  | sound {t : String} (hdefined : Defined m t) (hlisted : ¬ l.Lists t) :
      TargetReport subject (.text t) []
  | undefined {t : String} (hdefined : ¬ Defined m t) (hlisted : ¬ l.Lists t) :
      TargetReport subject (.text t) [⟨.undefinedTarget, subject, .text t, source⟩]
  | chained {t : String} (hdefined : Defined m t) (hlisted : l.Lists t) :
      TargetReport subject (.text t) [⟨.chainedTarget, subject, .text t, source⟩]
  | undefinedChained {t : String} (hdefined : ¬ Defined m t) (hlisted : l.Lists t) :
      TargetReport subject (.text t)
        [⟨.undefinedTarget, subject, .text t, source⟩, ⟨.chainedTarget, subject, .text t, source⟩]

/-- The issues of a row of entries, one after the other. -/
inductive Report (kind : LedgerKind) : List (String × Value) → List Issue → Prop where
  | nil : Report kind [] []
  | cons {subject : String} {replacement : Value} {rest : List (String × Value)}
      {targets : List Value} {own others : List Issue} {parts : List (List Issue)}
      (hsubject : SubjectReport m source subject kind own) (htargets : Targets replacement targets)
      (hparts : List.Forall₂ (TargetReport l m source subject) targets parts)
      (hrest : Report kind rest others) :
      Report kind ((subject, replacement) :: rest) (own ++ parts.flatten ++ others)

end Rules

variable {l : Ledger} {m : ModeSet} {kind : LedgerKind} {source subject : String}

/-- What is wrong with a ledger depends on the names that are defined and on nothing else. -/
theorem issues_congr {m m' : ModeSet} (htype : m.typePrefix = m'.typePrefix)
    (hdefines : ∀ name, m.defines name = m'.defines name) (l : Ledger) (kind : LedgerKind)
    (source : String) : l.issues m kind source = l.issues m' kind source := by
  have hdefined : isDefined m = isDefined m' := by
    funext dotted
    rw [isDefined, isDefined, htype, hdefines]
  have htarget : targetIssues l m = targetIssues l m' := by
    funext source subject v
    unfold targetIssues
    rw [hdefined]
  unfold issues subjectIssues
  rw [hdefined, htarget]

theorem validate_issues (l : Ledger) (m : ModeSet) (kind : LedgerKind) (source : String) :
    (l.validate m kind source).2 = l.issues m kind source :=
  issues_congr m.finalize_typePrefix m.finalize_defines l kind source

/-- The name that is looked for is the prefix, a hyphen and the ledger's own text. -/
theorem isDefined_iff {dotted : String} : isDefined m dotted = true ↔ Defined m dotted := by
  have hname : nameOfDotted m.typePrefix dotted = m.typePrefix ++ "-" ++ dotted :=
    congrArg (m.typePrefix ++ "-" ++ ·) (dottedPath_splitPath dotted)
  simp [isDefined, ModeSet.defines, Defined, hname, VariableSet.contains_iff, VariableSet.names]

theorem isDefined_eq_false {dotted : String} : isDefined m dotted = false ↔ ¬ Defined m dotted := by
  rw [← isDefined_iff, Bool.not_eq_true]

theorem has_iff {name : String} : l.has name = true ↔ l.Lists name := by
  simp [has, Lists]

theorem has_eq_false {name : String} : l.has name = false ↔ ¬ l.Lists name := by
  rw [← has_iff, Bool.not_eq_true]

theorem targets_iff {v : Value} {ts : List Value} : Targets v ts ↔ ts = targets v := by
  constructor
  · intro h
    cases h with
    | single hnull hlist htuple =>
      cases v with
      | null => exact absurd rfl hnull
      | list xs => exact absurd rfl (hlist xs)
      | tuple xs => exact absurd rfl (htuple xs)
      | _ => rfl
    | _ => rfl
  · rintro rfl
    cases v with
    | null => exact .nothing
    | list xs => exact .list xs
    | tuple xs => exact .tuple xs
    | _ => exact .single nofun nofun nofun

theorem subjectReport_iff {own : List Issue} :
    SubjectReport m source subject kind own ↔ own = subjectIssues m kind source subject := by
  constructor
  · intro h
    cases h with
    | fits hfits =>
      cases kind with
      | deprecated => simp [subjectIssues, isDefined_iff.mpr hfits]
      | removed => simp [subjectIssues, isDefined_eq_false.mpr hfits]
    | stale hstale => simp [subjectIssues, isDefined_eq_false.mpr hstale]
    | defined hdefined => simp [subjectIssues, isDefined_iff.mpr (not_not.mp hdefined)]
  · rintro rfl
    by_cases hdefined : Defined m subject
    · have his := isDefined_iff.mpr hdefined
      cases kind with
      | deprecated =>
        simp only [subjectIssues, his]
        exact .fits hdefined
      | removed =>
        simp only [subjectIssues, his]
        exact .defined (not_not.mpr hdefined)
    · have his := isDefined_eq_false.mpr hdefined
      cases kind with
      | deprecated =>
        simp only [subjectIssues, his]
        exact .stale hdefined
      | removed =>
        simp only [subjectIssues, his]
        exact .fits hdefined

theorem targetReport_iff {v : Value} {part : List Issue} :
    TargetReport l m source subject v part ↔ part = targetIssues l m source subject v := by
  constructor
  · intro h
    cases h with
    | foreign hforeign =>
      cases v with
      | text t => exact absurd rfl (hforeign t)
      | _ => rfl
    | sound hdefined hlisted =>
      simp [targetIssues, isDefined_iff.mpr hdefined, has_eq_false.mpr hlisted]
    | undefined hdefined hlisted =>
      simp [targetIssues, isDefined_eq_false.mpr hdefined, has_eq_false.mpr hlisted]
    | chained hdefined hlisted =>
      simp [targetIssues, isDefined_iff.mpr hdefined, has_iff.mpr hlisted]
    | undefinedChained hdefined hlisted =>
      simp [targetIssues, isDefined_eq_false.mpr hdefined, has_iff.mpr hlisted]
  · rintro rfl
    by_cases htext : ∃ t, v = .text t
    · obtain ⟨t, rfl⟩ := htext
      by_cases hdefined : Defined m t <;> by_cases hlisted : l.Lists t
      · simpa [targetIssues, isDefined_iff.mpr hdefined, has_iff.mpr hlisted] using
          .chained hdefined hlisted
      · simpa [targetIssues, isDefined_iff.mpr hdefined, has_eq_false.mpr hlisted] using
          .sound hdefined hlisted
      · simpa [targetIssues, isDefined_eq_false.mpr hdefined, has_iff.mpr hlisted] using
          .undefinedChained hdefined hlisted
      · simpa [targetIssues, isDefined_eq_false.mpr hdefined, has_eq_false.mpr hlisted] using
          .undefined hdefined hlisted
    · have hforeign : ∀ t, v ≠ .text t := fun t he => htext ⟨t, he⟩
      cases v with
      | text t => exact absurd rfl (hforeign t)
      | _ => exact .foreign hforeign

theorem targetReports_iff {ts : List Value} {parts : List (List Issue)} :
    List.Forall₂ (TargetReport l m source subject) ts parts ↔
      parts = ts.map (targetIssues l m source subject) := by
  have hrule : TargetReport l m source subject =
      fun v part => targetIssues l m source subject v = part := by
    funext v part
    exact propext (targetReport_iff.trans eq_comm)
  rw [hrule, ← List.forall₂_map_left_iff, List.forall₂_eq_eq_eq, eq_comm]

/-- The rules admit one list of issues for each row of entries. -/
theorem report_iff {entries : List (String × Value)} {issues : List Issue} :
    Report l m source kind entries issues ↔
      issues = entries.flatMap fun (subject, replacement) =>
        subjectIssues m kind source subject ++
          (targets replacement).flatMap (targetIssues l m source subject) := by
  induction entries generalizing issues with
  | nil =>
    constructor
    · intro h
      cases h
      rfl
    · rintro rfl
      exact .nil
  | cons entry rest ih =>
    obtain ⟨subject, replacement⟩ := entry
    rw [List.flatMap_cons]
    constructor
    · intro h
      cases h with
      | cons hsubject htargets hparts hrest =>
        obtain rfl := subjectReport_iff.mp hsubject
        obtain rfl := targets_iff.mp htargets
        obtain rfl := targetReports_iff.mp hparts
        rw [ih.mp hrest]
        rfl
    · rintro rfl
      exact .cons (subjectReport_iff.mpr rfl) (targets_iff.mpr rfl) (targetReports_iff.mpr rfl)
        (ih.mpr rfl)

theorem subjectIssues_eq_nil : subjectIssues m kind source subject = [] ↔ Fits m kind subject := by
  rw [eq_comm, ← subjectReport_iff]
  constructor
  · intro h
    cases h with
    | fits hfits => exact hfits
  · exact .fits

/-- A target that nothing is wrong with is a defined name without an entry of its own. -/
def IsSound (l : Ledger) (m : ModeSet) (target : Value) : Prop :=
  ∃ name, target = .text name ∧ Defined m name ∧ ¬ l.Lists name

theorem targetIssues_eq_nil {v : Value} :
    targetIssues l m source subject v = [] ↔ l.IsSound m v := by
  rw [eq_comm, ← targetReport_iff]
  constructor
  · intro h
    cases h with
    | sound hdefined hlisted => exact ⟨_, rfl, hdefined, hlisted⟩
  · rintro ⟨name, rfl, hdefined, hlisted⟩
    exact .sound hdefined hlisted

theorem issues_eq_nil :
    l.issues m kind source = [] ↔
      ∀ subject replacement, (subject, replacement) ∈ l → Fits m kind subject ∧
        ∀ ts, Targets replacement ts → ∀ t ∈ ts, l.IsSound m t := by
  simp only [issues, List.flatMap_eq_nil_iff, List.append_eq_nil_iff, subjectIssues_eq_nil,
    targetIssues_eq_nil, targets_iff, Prod.forall, forall_eq]

/-- Validation of a ledger is sound and complete: its list of issues is the one that the rules admit,
no more and no less, in the order of the ledger. It is empty exactly if every name fits the kind of
the ledger and every target is a defined name without an entry, and then nothing leads on from a
target of a replacement. -/
theorem validate_report (l : Ledger) (m : ModeSet) (kind : LedgerKind) (source : String) :
    (∀ issues, Report l m source kind l issues ↔ issues = (l.validate m kind source).2) ∧
    ((l.validate m kind source).2 = [] ↔
      ∀ subject replacement, (subject, replacement) ∈ l → Fits m kind subject ∧
        ∀ ts, Targets replacement ts → ∀ t ∈ ts, l.IsSound m t) ∧
    ((l.validate m kind source).2 = [] → ∀ name target, l.Leads name target →
      ∀ next, ¬ l.Leads target next) := by
  rw [validate_issues]
  refine ⟨fun issues => report_iff, issues_eq_nil, fun hnil name target hleads next hnext => ?_⟩
  obtain ⟨replacement, ts, hentry, hts, htarget⟩ := hleads
  obtain ⟨-, hsound⟩ := issues_eq_nil.mp hnil name replacement hentry
  obtain ⟨name', he, -, hlisted⟩ := hsound ts hts _ htarget
  obtain rfl : target = name' := by simpa using he
  obtain ⟨replacement', -, hentry', -⟩ := hnext
  exact hlisted ⟨replacement', hentry'⟩

end DesignTokens.Ledger
