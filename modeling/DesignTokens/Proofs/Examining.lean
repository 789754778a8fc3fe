import DesignTokens.Build
import DesignTokens.Proofs.JsonData
import DesignTokens.Proofs.Parity

/-! What the examination of a loaded type tells. Ledgers are checked and modes are rendered one by
one: each adds its own errors, and none keeps the others from being told unless it meets a fault. -/
namespace DesignTokens

namespace Ledger

/-- A ledger that cannot be read is in error, or one of its integers has too many digits. -/
theorem read_cases (text source : String) :
    (∃ n, Json.read text = .error (.overlong n) ∧
      read text source = .error (.value (.overlongInteger n))) ∨
    ((∀ n, Json.read text ≠ .error (.overlong n)) ∧
      ((∃ e, read text source = .error (.token e)) ∨ ∃ l, read text source = .ok l)) := by
  unfold read
  cases Json.read text with
  | error refusal =>
    cases refusal with
    | invalid fault => exact Or.inr ⟨by simp, Or.inl ⟨_, rfl⟩⟩
    | overlong n => exact Or.inl ⟨n, rfl, rfl⟩
  | ok v =>
    refine Or.inr ⟨by simp, ?_⟩
    cases v with
    | map es => exact Or.inr ⟨_, rfl⟩
    | _ => exact Or.inl ⟨_, rfl⟩

theorem read_eq_ok {text source : String} {l : Ledger} (h : read text source = .ok l) :
    ∀ e ∈ l, Json.IsData e.2 := by
  unfold read at h
  split at h
  · cases h
  · cases h
  · next es hread =>
    cases h
    intro e he
    obtain ⟨entry, hentry, rfl⟩ := List.mem_map.mp he
    cases Json.read_data hread with
    | map _ hdata => exact hdata entry hentry
  · cases h

theorem targets_data {v : Value} (hv : Json.IsData v) : ∀ w ∈ targets v, Json.IsData w := by
  cases hv with
  | null => simp [targets]
  | list h => exact h
  | _ =>
    intro w hw
    obtain rfl := List.mem_singleton.mp hw
    constructor <;> assumption

theorem subjectIssues_data {m : ModeSet} {kind : LedgerKind} {source subject : String} :
    ∀ i ∈ subjectIssues m kind source subject, Json.IsData i.replacement := by
  intro i hi
  unfold subjectIssues at hi
  split at hi
  · obtain rfl := List.mem_singleton.mp hi
    exact .null
  · obtain rfl := List.mem_singleton.mp hi
    exact .null
  · cases hi

theorem targetIssues_data {l : Ledger} {m : ModeSet} {source subject : String} {v : Value}
    (hv : Json.IsData v) : ∀ i ∈ targetIssues l m source subject v, Json.IsData i.replacement := by
  intro i hi
  unfold targetIssues at hi
  split at hi
  · next target =>
    have htext : i.replacement = .text target := by
      rcases List.mem_append.mp hi with hi | hi <;> split at hi
      · cases hi
      · rw [List.mem_singleton.mp hi]
      · rw [List.mem_singleton.mp hi]
      · cases hi
    exact htext ▸ hv
  · obtain rfl := List.mem_singleton.mp hi
    exact hv

/-- Every issue of a ledger of data can be told. -/
theorem issues_message {l : Ledger} {m : ModeSet} {kind : LedgerKind} {source : String}
    (hl : ∀ e ∈ l, Json.IsData e.2) :
    ∀ i ∈ l.issues m kind source, ∃ text, i.message = .ok text := by
  intro i hi
  have hdata : Json.IsData i.replacement := by
    obtain ⟨⟨subject, replacement⟩, hentry, hi⟩ := List.mem_flatMap.mp hi
    rcases List.mem_append.mp hi with hi | hi
    · exact subjectIssues_data i hi
    · obtain ⟨target, htarget, hi⟩ := List.mem_flatMap.mp hi
      exact targetIssues_data (targets_data (hl _ hentry) target htarget) i hi
  obtain ⟨target, htarget⟩ := hdata.textIn .line
  exact ⟨i.messageWith target, by rw [Issue.message, Json.compact, htarget]; rfl⟩

end Ledger

namespace LedgerResult

/-- What a ledger adds to the errors of its type: its problem, and the text of each issue. -/
def Tells (l : LedgerResult) (text : String) : Prop :=
  (∃ problem, l.problem = some problem ∧ text = problem.message) ∨
    ∃ i ∈ l.issues, i.message = .ok text

theorem errors_of_issues {l : LedgerResult} (h : ∀ i ∈ l.issues, ∃ text, i.message = .ok text) :
    ∃ errors, l.errors = .ok errors ∧ ∀ text, text ∈ errors ↔ l.Tells text := by
  have hissues : ∃ texts, l.issues.mapM (·.message) = .ok texts := by
    cases hm : l.issues.mapM (·.message) with
    | ok texts => exact ⟨texts, rfl⟩
    | error failure =>
      obtain ⟨i, hi, he⟩ := mapM_eq_error hm
      obtain ⟨text, htext⟩ := h i hi
      simp [htext] at he
  obtain ⟨texts, htexts⟩ := hissues
  have hmem := mem_of_mapM_eq_ok htexts
  unfold errors Tells
  rw [htexts, ok_bind]
  cases l.problem with
  | none => exact ⟨texts, rfl, fun text => by simp [hmem]⟩
  | some problem => exact ⟨_, rfl, fun text => by simp [hmem]⟩

theorem errors_of_all {ledgers : List LedgerResult}
    (h : ∀ l ∈ ledgers, ∃ errors, l.errors = .ok errors ∧ ∀ text, text ∈ errors ↔ l.Tells text) :
    ∃ errors, ledgers.mapM (·.errors) = .ok errors ∧
      ∀ text, text ∈ errors.flatten ↔ ∃ l ∈ ledgers, l.Tells text := by
  obtain ⟨errors, herrors⟩ := exists_mapM_eq_ok.mpr fun l hl => (h l hl).imp fun _ he => he.1
  refine ⟨errors, herrors, fun text => ?_⟩
  simp only [List.mem_flatten, mem_of_mapM_eq_ok herrors]
  constructor
  · rintro ⟨texts, ⟨l, hl, he⟩, htext⟩
    obtain ⟨texts', he', htold⟩ := h l hl
    obtain rfl : texts' = texts := by simpa [he'] using he
    exact ⟨l, hl, (htold text).mp htext⟩
  · rintro ⟨l, hl, htext⟩
    obtain ⟨texts, he, htold⟩ := h l hl
    exact ⟨texts, ⟨l, hl, he⟩, (htold text).mpr htext⟩

/-- How a fault escapes from a ledger of a type: its bytes are no text, one of its integers has too
many digits to be read, or it has entries and the prefix of the type has too many to complete their
names. -/
inductive Escapes (t : FileTree) (typePrefix : Value) (path : Path) : Fault → Prop where
  | bytes {f : Fault} (hread : t.readText path = .error f) (hfault : ∀ fault, f ≠ .file fault) :
      Escapes t typePrefix path f
  | overlong {text : String} {n : Nat} (hread : t.readText path = .ok text)
      (hjson : Json.read text = .error (.overlong n)) :
      Escapes t typePrefix path (.value (.overlongInteger n))
  | unnamed {text : String} {entries : Ledger} (hread : t.readText path = .ok text)
      (hledger : Ledger.read text path.text = .ok entries) (hne : entries ≠ [])
      (htext : typePrefix.hasText = false) : Escapes t typePrefix path (.value .unwritableInteger)

theorem escapes_of_text {t : FileTree} {typePrefix : Value} {path : Path} {text : String} {f : Fault}
    (hread : t.readText path = .ok text) : Escapes t typePrefix path f ↔
      (∃ n, Json.read text = .error (.overlong n) ∧ f = .value (.overlongInteger n)) ∨
      ∃ entries, Ledger.read text path.text = .ok entries ∧ entries ≠ [] ∧
        typePrefix.hasText = false ∧ f = .value .unwritableInteger := by
  constructor
  · intro h
    cases h with
    | bytes hread' => cases hread.symm.trans hread'
    | overlong hread' hjson =>
      cases hread.symm.trans hread'
      exact Or.inl ⟨_, hjson, rfl⟩
    | unnamed hread' hledger hne htext =>
      cases hread.symm.trans hread'
      exact Or.inr ⟨_, hledger, hne, htext, rfl⟩
  · rintro (⟨n, hjson, rfl⟩ | ⟨entries, hledger, hne, htext, rfl⟩)
    · exact .overlong hread hjson
    · exact .unnamed hread hledger hne htext

end LedgerResult

namespace TypeResult

/-- A ledger is checked unless a fault escapes from it; what is wrong with it can be told. -/
theorem checkLedger_cases (t : FileTree) (s : TypeSource) (m : ModeSet) (kind : LedgerKind)
    (path : Path) :
    (∃ f, LedgerResult.Escapes t s.typePrefix path f ∧ checkLedger t s m kind path = .error f) ∨
    ((∀ f, ¬ LedgerResult.Escapes t s.typePrefix path f) ∧
      ∃ l, checkLedger t s m kind path = .ok l ∧ LedgerResult.check t m kind path = .ok l ∧
        ∃ errors, l.errors = .ok errors ∧ ∀ text, text ∈ errors ↔ l.Tells text) := by
  unfold checkLedger LedgerResult.check
  cases hread : t.readText path with
  | error f =>
    cases f with
    | file fault =>
      refine Or.inr ⟨fun f hf => ?_, _, rfl, rfl, LedgerResult.errors_of_issues (by simp)⟩
      cases hf with
      | bytes hread' hnot => exact hnot fault (Except.error.inj (hread'.symm.trans hread))
      | overlong hread' => cases hread'.symm.trans hread
      | unnamed hread' => cases hread'.symm.trans hread
    | _ => exact Or.inl ⟨_, .bytes hread (by simp), rfl⟩
  | ok text =>
    dsimp only
    simp only [LedgerResult.escapes_of_text hread]
    rcases Ledger.read_cases text path.text with
      ⟨n, hjson, hledger⟩ | ⟨hjson, ⟨e, hledger⟩ | ⟨entries, hledger⟩⟩ <;> rw [hledger]
    · exact Or.inl ⟨_, Or.inl ⟨n, hjson, rfl⟩, rfl⟩
    · exact Or.inr ⟨by simp [hjson], _, rfl, rfl, LedgerResult.errors_of_issues (by simp)⟩
    · by_cases hnames : entries ≠ [] ∧ s.typePrefix.hasText = false
      · refine Or.inl ⟨_, Or.inr ⟨entries, rfl, hnames.1, hnames.2, rfl⟩, ?_⟩
        simp [hnames, throw, throwThe, MonadExceptOf.throw]
      · refine Or.inr ⟨?_, _, ?_, rfl,
          LedgerResult.errors_of_issues (Ledger.issues_message (Ledger.read_eq_ok hledger))⟩
        · rintro f (⟨n, hoverlong, -⟩ | ⟨entries', hledger', hne, htext, -⟩)
          · exact hjson n hoverlong
          · cases hledger'
            exact hnames ⟨hne, htext⟩
        · have hguard : (entries.isEmpty || s.typePrefix.hasText) = true := by
            simpa [or_iff_not_imp_left] using hnames
          exact if_pos hguard

theorem checkLedger_eq_ok {t : FileTree} {s : TypeSource} {m : ModeSet} {kind : LedgerKind}
    {path : Path} {l : LedgerResult} (h : checkLedger t s m kind path = .ok l) :
    (∀ f, ¬ LedgerResult.Escapes t s.typePrefix path f) ∧
      LedgerResult.check t m kind path = .ok l ∧
      ∃ errors, l.errors = .ok errors ∧ ∀ text, text ∈ errors ↔ l.Tells text := by
  obtain ⟨f, -, he⟩ | ⟨hnone, l', hl', hcheck, htold⟩ := checkLedger_cases t s m kind path
  · simp [he] at h
  · obtain rfl : l' = l := by simpa [hl'] using h
    exact ⟨hnone, hcheck, htold⟩

end TypeResult

namespace ModeSet

variable [Platform]

/-- The text of an error of rendering a mode. -/
def renderText (m : ModeSet) (mode : String) (e : TokenError) : String :=
  (e.located (some ⟨some m.type, some mode, none⟩)).text

/-- The errors of rendering one mode. -/
def renderMode (m : ModeSet) (mode : String × VariableSet) : Except Fault (List String) :=
  match mode.2.renderTree with
  | .ok _ => .ok []
  | .error (.token e) => .ok [m.renderText mode.1 e]
  | .error (.fault f) => .error f

theorem renderErrors_eq (m : ModeSet) :
    m.renderErrors = (m.modes.mapM m.renderMode).map List.flatten := by
  have hstep : m.renderErrors =
      m.modes.foldlM (fun errors mode => (m.renderMode mode).map (errors ++ ·)) [] := by
    unfold renderErrors
    congr 1
    funext errors ⟨mode, s⟩
    unfold renderMode
    dsimp only
    split <;> simp [*, Except.map, renderText]
  rw [hstep, foldlM_append_eq]
  rfl

theorem renderMode_eq_error {m : ModeSet} {mode : String × VariableSet} {f : Fault} :
    m.renderMode mode = .error f ↔ mode.2.renderTree = .error (.fault f) := by
  unfold renderMode
  split <;> simp [*]

theorem mem_renderMode {m : ModeSet} {mode : String × VariableSet} {text : String} :
    (∃ errors, m.renderMode mode = .ok errors ∧ text ∈ errors) ↔
      ∃ e, mode.2.renderTree = .error (.token e) ∧ text = m.renderText mode.1 e := by
  unfold renderMode
  split <;> simp [*]

/-- Rendering goes through all modes unless one meets a fault, and tells the error of each. -/
theorem renderErrors_cases (m : ModeSet) :
    (∃ mode ∈ m.modes, ∃ f, mode.2.renderTree = .error (.fault f) ∧ m.renderErrors = .error f) ∨
    ((∀ mode ∈ m.modes, ∀ f, mode.2.renderTree ≠ .error (.fault f)) ∧
      ∃ errors, m.renderErrors = .ok errors ∧ ∀ text, text ∈ errors ↔
        ∃ mode ∈ m.modes, ∃ e, mode.2.renderTree = .error (.token e) ∧
          text = m.renderText mode.1 e) := by
  rw [renderErrors_eq]
  cases hmodes : m.modes.mapM m.renderMode with
  | error f =>
    obtain ⟨mode, hmem, hf⟩ := mapM_eq_error hmodes
    exact Or.inl ⟨mode, hmem, f, renderMode_eq_error.mp hf, rfl⟩
  | ok lists =>
    refine Or.inr ⟨fun mode hmem f hf => ?_, lists.flatten, rfl, fun text => ?_⟩
    · obtain ⟨errors, herrors⟩ := exists_mapM_eq_ok.mp ⟨lists, hmodes⟩ mode hmem
      simp [renderMode_eq_error.mpr hf] at herrors
    · simp only [List.mem_flatten, mem_of_mapM_eq_ok hmodes, ← mem_renderMode]
      constructor
      · intro h
        obtain ⟨errors, ⟨mode, hmem, herrors⟩, htext⟩ := h
        exact ⟨mode, hmem, errors, herrors, htext⟩
      · intro h
        obtain ⟨mode, hmem, errors, herrors, htext⟩ := h
        exact ⟨errors, ⟨mode, hmem, herrors⟩, htext⟩

end ModeSet

namespace TypeResult

/-- The ledgers of a type that are there, with their kinds. -/
def ledgerFiles (s : TypeSource) : List (LedgerKind × Path) :=
  s.deprecated.toList.map (.deprecated, ·) ++ s.removed.toList.map (.removed, ·)

theorem checkLedgers_eq (t : FileTree) (s : TypeSource) (m : ModeSet) :
    checkLedgers t s m = (ledgerFiles s).mapM fun (kind, path) => checkLedger t s m kind path := by
  unfold checkLedgers ledgerFiles
  cases s.deprecated <;> cases s.removed
  · rfl
  · next path => cases h : checkLedger t s m .removed path <;> simp [h, Except.map]
  · next path => cases h : checkLedger t s m .deprecated path <;> simp [h, Except.map]
  · next path path' =>
    cases h : checkLedger t s m .deprecated path <;>
      cases h' : checkLedger t s m .removed path' <;> simp [h, h', Except.map]

/-- The ledgers of a type are checked unless a fault escapes from one. -/
theorem checkLedgers_cases (t : FileTree) (s : TypeSource) (m : ModeSet) :
    (∃ file ∈ ledgerFiles s, ∃ f, LedgerResult.Escapes t s.typePrefix file.2 f ∧
      checkLedgers t s m = .error f) ∨
    ((∀ file ∈ ledgerFiles s, ∀ f, ¬ LedgerResult.Escapes t s.typePrefix file.2 f) ∧
      ∃ ledgers, checkLedgers t s m = .ok ledgers ∧
        List.Forall₂ (fun file l => LedgerResult.check t m file.1 file.2 = .ok l)
          (ledgerFiles s) ledgers ∧
        ∃ errors, ledgers.mapM (·.errors) = .ok errors ∧
          ∀ text, text ∈ errors.flatten ↔ ∃ l ∈ ledgers, l.Tells text) := by
  rw [checkLedgers_eq]
  cases hledgers : (ledgerFiles s).mapM fun (kind, path) => checkLedger t s m kind path with
  | error f =>
    obtain ⟨⟨kind, path⟩, hmem, hf⟩ := mapM_eq_error hledgers
    obtain ⟨g, hg, he⟩ | ⟨-, l, hl, -⟩ := checkLedger_cases t s m kind path
    · obtain rfl : g = f := by simpa [he] using hf
      exact Or.inl ⟨_, hmem, g, hg, rfl⟩
    · simp [hl] at hf
  | ok ledgers =>
    have hchecked := mapM_eq_ok.mp hledgers
    have htold : ∀ l ∈ ledgers,
        ∃ errors, l.errors = .ok errors ∧ ∀ text, text ∈ errors ↔ l.Tells text := by
      intro l hl
      obtain ⟨file, -, hfile⟩ := (mem_of_mapM_eq_ok hledgers l).mp hl
      exact (checkLedger_eq_ok hfile).2.2
    refine Or.inr ⟨fun file hmem => ?_, ledgers, rfl,
      hchecked.imp fun file l hfile => (checkLedger_eq_ok hfile).2.1, LedgerResult.errors_of_all htold⟩
    obtain ⟨l, hl⟩ := exists_mapM_eq_ok.mp ⟨ledgers, hledgers⟩ file hmem
    exact (checkLedger_eq_ok hl).1

end TypeResult

end DesignTokens
