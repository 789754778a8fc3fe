import DesignTokens.Ledger
import DesignTokens.Proofs.Parity

/-! The life of a type. Modes are added and filled until some request finalizes the type, which also
a look at its baseline does; from then on nothing that is asked of it changes it. -/
namespace DesignTokens

namespace VariableSet

/-- The failure of an operation, if it fails. -/
def failure? (s : VariableSet) : Operation → Option Failure
  | .add tree => (s.add tree).failure
  | .addAll trees => (s.addAll trees).failure
  | .finalize => none

theorem addAll_of_finalized {s : VariableSet} (h : s.finalized = true) (trees : List Value) :
    (s.addAll trees).set = s := by
  cases trees with
  | nil => rfl
  | cons tree rest => simp [addAll, add, h]

theorem finalize_of_finalized {s : VariableSet} (h : s.finalized = true) : s.finalize = s := by
  cases s
  simp_all [finalize]

/-- A finalized set stays as it is. -/
theorem perform_of_finalized {s : VariableSet} (h : s.finalized = true) (op : Operation) :
    s.perform op = s := by
  cases op with
  | add tree => simp [perform, add, h]
  | addAll trees => exact addAll_of_finalized h trees
  | finalize => exact finalize_of_finalized h

theorem perform_mode_typePrefix (s : VariableSet) (op : Operation) :
    (s.perform op).mode = s.mode ∧ (s.perform op).typePrefix = s.typePrefix :=
  s.run_mode_typePrefix [op]

end VariableSet

namespace ModeSet

/-- What can be asked of a type. The variables of a mode are handed out as they stand in the type, so
they can be changed there; the table of modes is handed out as a copy. -/
inductive Request where
  | add (name : String) (s : VariableSet)
  | change (mode : String) (op : VariableSet.Operation)
  | finalize
  | validate
  | baselineMode
  | baseline
  | validateLedger (l : Ledger) (kind source : String)
  | dropFromCopy (mode : String)
  | iterate
  | get (mode : String)
  | defines (name : String)

/-- What a request answers. -/
inductive Answer where
  | done
  | failed (failure : Failure)
  | verdict (v : Validation)
  | mode (name : Option String)
  | variables (s : Option VariableSet)
  | issues (found : List Issue)
  | modes (table : List (String × VariableSet))
  | truth (b : Bool)

/-- The answer of a request that only succeeds or fails. -/
def Answer.ofFailure : Option Failure → Answer
  | none => .done
  | some failure => .failed failure

/-- The type after a request, and what the request answers. -/
def serve (m : ModeSet) : Request → ModeSet × Answer
  | .add name s =>
    (m.perform (.add name s),
      match m.add name s with
      | .ok _ => .done
      | .error failure => .failed failure)
  | .change mode op =>
    (m.perform (.change mode op),
      match m.get? mode with
      | some s => .ofFailure (s.failure? op)
      | none => .failed (.fault .noSuchPart))
  | .finalize => (m.finalize, .done)
  | .validate => (m.validate.1, .verdict m.validate.2)
  | .baselineMode => (m.finalize, .mode m.finalize.chosen)
  | .baseline => (m.finalize, .variables m.finalize.baselineSet?)
  | .validateLedger l kind source =>
    match LedgerKind.ofName kind with
    | .ok kind => ((l.validate m kind source).1, .issues (l.validate m kind source).2)
    | .error failure => (m, .failed failure)
  | .dropFromCopy mode => (m, .modes (m.modes.filter (·.1 ≠ mode)))
  | .iterate => (m, .modes m.modes)
  | .get mode => (m, .variables (m.get? mode))
  | .defines name => (m, .truth (m.defines name))

/-- The type after a row of requests. -/
def serveAll (m : ModeSet) (requests : List Request) : ModeSet :=
  requests.foldl (fun m r => (m.serve r).1) m

/-- The requests that finalize a type. Validating a ledger of an unknown kind fails before that. -/
def Request.Finalizes : Request → Prop
  | .finalize => True
  | .validate => True
  | .baselineMode => True
  | .baseline => True
  | .validateLedger _ kind _ => ∃ k, LedgerKind.ofName kind = .ok k
  | _ => False

/-- A request leaves a type as it is or performs one operation on it. -/
theorem serve_eq (m : ModeSet) (r : Request) :
    (m.serve r).1 = m ∨ ∃ op, (m.serve r).1 = m.perform op := by
  cases r with
  | add name s => exact Or.inr ⟨.add name s, rfl⟩
  | change mode op => exact Or.inr ⟨.change mode op, rfl⟩
  | finalize => exact Or.inr ⟨.finalize, rfl⟩
  | validate => exact Or.inr ⟨.validate, rfl⟩
  | baselineMode => exact Or.inr ⟨.finalize, rfl⟩
  | baseline => exact Or.inr ⟨.finalize, rfl⟩
  | validateLedger l kind source =>
    cases hkind : LedgerKind.ofName kind with
    | ok k => exact Or.inr ⟨.finalize, by simp [serve, hkind, Ledger.validate, perform]⟩
    | error failure => exact Or.inl (by simp [serve, hkind])
  | dropFromCopy mode => exact Or.inl rfl
  | iterate => exact Or.inl rfl
  | get mode => exact Or.inl rfl
  | defines name => exact Or.inl rfl

theorem serve_of_finalizes {r : Request} (h : r.Finalizes) (m : ModeSet) :
    (m.serve r).1 = m.finalize := by
  cases r with
  | validateLedger l kind source =>
    obtain ⟨k, hk⟩ := h
    simp [serve, hk, Ledger.validate]
  | finalize => rfl
  | validate => rfl
  | baselineMode => rfl
  | baseline => rfl
  | _ => exact h.elim

/-- Addition fails exactly for a finalized type, a name that is taken, another prefix and another
mode. -/
theorem exists_add_eq_error {m : ModeSet} {name : String} {s : VariableSet} :
    (∃ failure, m.add name s = .error failure) ↔
      m.finalized = true ∨ name ∈ m.names ∨ s.typePrefix ≠ m.typePrefix ∨ s.mode ≠ name := by
  unfold add
  split
  · next hfinal => simp [hfinal]
  split
  · next hold => simpa [has] using Or.inr (Or.inl (by simpa [has] using hold))
  split
  · next htype => simp [htype]
  split
  · next hmode => simp [hmode]
  next hfinal hnew htype hmode => simp_all [has]

/-- What an operation can do to a type. -/
theorem perform_cases (m : ModeSet) (op : Operation) :
    m.perform op = m ∨ m.perform op = m.finalize ∨
    (∃ name s, op = .add name s ∧ m.finalized = false ∧ name ∉ m.names ∧
      s.typePrefix = m.typePrefix ∧ s.mode = name ∧
      m.perform op = { m with modes := m.modes ++ [(name, s)] }) ∨
    ∃ mode s change, op = .change mode change ∧ m.get? mode = some s ∧
      m.perform op = m.replace mode (s.perform change) := by
  cases op with
  | add name s =>
    cases hadd : m.add name s with
    | error failure => exact Or.inl (by simp [perform, hadd])
    | ok m' =>
      obtain ⟨hfinal, hnew, htype, hmode, rfl⟩ := add_eq_ok hadd
      exact Or.inr (Or.inr (Or.inl
        ⟨name, s, rfl, hfinal, hnew, htype, hmode, by simp [perform, hadd]⟩))
  | change mode op =>
    cases hget : m.get? mode with
    | none => exact Or.inl (by simp [perform, hget])
    | some s => exact Or.inr (Or.inr (Or.inr ⟨mode, s, op, rfl, hget, by simp [perform, hget]⟩))
  | finalize => exact Or.inr (Or.inl rfl)
  | validate => exact Or.inr (Or.inl rfl)

theorem perform_frame (m : ModeSet) (op : Operation) :
    (m.perform op).typePrefix = m.typePrefix ∧ (m.perform op).configured = m.configured := by
  obtain he | he | ⟨name, s, -, -, -, -, -, he⟩ | ⟨mode, s, change, -, -, he⟩ := m.perform_cases op
  · simp [he]
  · simp [he]
  · simp [he]
  · simp [he, replace]

theorem mem_modes_of_get? {m : ModeSet} {mode : String} {s : VariableSet}
    (h : m.get? mode = some s) : (mode, s) ∈ m.modes := by
  obtain ⟨before, after, he, -⟩ := List.lookup_eq_some_iff.mp h
  simp [he]

theorem mem_replace {m : ModeSet} {name : String} {s : VariableSet} {e : String × VariableSet}
    (h : e ∈ (m.replace name s).modes) : e ∈ m.modes ∨ (e = (name, s) ∧ name ∈ m.names) := by
  obtain ⟨⟨n, t⟩, hmem, he⟩ := List.mem_map.mp h
  dsimp only at he
  split at he
  · next hn => exact Or.inr ⟨by rw [← he, hn], hn ▸ List.mem_map.mpr ⟨_, hmem, rfl⟩⟩
  · exact Or.inl (he ▸ hmem)

theorem mem_finalize {m : ModeSet} {e : String × VariableSet} (h : e ∈ m.finalize.modes) :
    e ∈ m.modes ∨ ∃ s, (e.1, s) ∈ m.modes ∧ e.2 = s.finalize := by
  unfold finalize at h
  split at h
  · exact Or.inl h
  · obtain ⟨⟨n, s⟩, hmem, rfl⟩ := List.mem_map.mp h
    exact Or.inr ⟨s, hmem, rfl⟩

/-- What holds of each mode that is added, and is kept by changes of its variables, holds of all
modes after an operation. -/
theorem perform_modes {P : String → VariableSet → Prop}
    (hchange : ∀ name s change, P name s → P name (s.perform change)) {m : ModeSet}
    (h : ∀ mode ∈ m.modes, P mode.1 mode.2) (op : Operation)
    (hadd : ∀ name s, op = .add name s → s.typePrefix = m.typePrefix → s.mode = name → P name s) :
    ∀ mode ∈ (m.perform op).modes, P mode.1 mode.2 := by
  intro mode hmode
  obtain he | he | ⟨name, s, rfl, -, -, htype, hname, he⟩ | ⟨name, s, change, rfl, hget, he⟩ :=
    m.perform_cases op
  · exact h mode (he ▸ hmode)
  · rw [he] at hmode
    rcases mem_finalize hmode with hmode | ⟨s, hs, hset⟩
    · exact h mode hmode
    · rw [hset]
      exact hchange mode.1 s .finalize (h _ hs)
  · rw [he] at hmode
    rcases List.mem_append.mp hmode with hmode | hmode
    · exact h mode hmode
    · obtain rfl := List.mem_singleton.mp hmode
      exact hadd name s rfl htype hname
  · rw [he] at hmode
    rcases mem_replace hmode with hmode | ⟨rfl, -⟩
    · exact h mode hmode
    · exact hchange name s change (h _ (mem_modes_of_get? hget))

theorem baselineOf_of_mem {m : ModeSet} {name : String} (hname : name ∈ m.names)
    (h : m.configured = .mode name) : m.baselineOf = some name := by
  simp [baselineOf, h, has, hname]

theorem baselineOf_of_lacks {m : ModeSet} (h : ∀ name ∈ m.names, m.configured ≠ .mode name) :
    m.baselineOf = m.names.head? := by
  unfold baselineOf
  split
  · next name hconfigured =>
    have hnot : name ∉ m.names := fun hmem => h name hmem hconfigured
    simp [has, hnot]
  · rfl

theorem baselineOf_eq_none {m : ModeSet} : m.baselineOf = none ↔ m.names = [] := by
  by_cases h : ∃ name ∈ m.names, m.configured = .mode name
  · obtain ⟨name, hname, hconfigured⟩ := h
    simp [baselineOf_of_mem hname hconfigured, List.ne_nil_of_mem hname]
  · rw [baselineOf_of_lacks fun name hname he => h ⟨name, hname, he⟩, List.head?_eq_none_iff]

theorem baselineOf_congr {m m' : ModeSet} (hnames : m'.names = m.names)
    (hconfigured : m'.configured = m.configured) : m'.baselineOf = m.baselineOf := by
  simp [baselineOf, has, hnames, hconfigured]

/-- What every operation keeps of a type: each mode is registered once, under its own name and with
the prefix of the type, and a finalized type holds finalized modes and the baseline that they have. -/
structure Orderly (m : ModeSet) : Prop where
  names_nodup : m.names.Nodup
  registered : ∀ mode ∈ m.modes, mode.2.mode = mode.1 ∧ mode.2.typePrefix = m.typePrefix
  closed : m.finalized = true → ∀ mode ∈ m.modes, mode.2.finalized = true
  chosen_eq : m.finalized = true → m.chosen = m.baselineOf

theorem empty_orderly (type typePrefix : String) (baseline : Baseline) :
    (empty type typePrefix baseline).Orderly := by
  constructor <;> simp [empty, names]

namespace Orderly

variable {m : ModeSet}

theorem finalize (h : m.Orderly) : m.finalize.Orderly where
  names_nodup := by simpa using h.names_nodup
  registered mode hmode := by
    rw [finalize_typePrefix]
    rcases mem_finalize hmode with hmode | ⟨s, hs, he⟩
    · exact h.registered mode hmode
    · rw [he]
      exact h.registered _ hs
  closed _ mode hmode := by
    unfold ModeSet.finalize at hmode
    split at hmode
    · next hfinal => exact h.closed hfinal mode hmode
    · obtain ⟨entry, -, rfl⟩ := List.mem_map.mp hmode
      rfl
  chosen_eq _ := by
    rw [baselineOf_congr m.finalize_names m.finalize_configured]
    unfold ModeSet.finalize
    split
    · next hfinal => exact h.chosen_eq hfinal
    · rfl

/-- Putting a mode's own variables back changes nothing. -/
theorem replace_self (h : m.Orderly) {mode : String} {s : VariableSet}
    (hget : m.get? mode = some s) : m.replace mode s = m := by
  have hmodes : (m.replace mode s).modes = m.modes := by
    rw [replace]
    refine (List.map_congr_left fun entry hentry => ?_).trans m.modes.map_id
    obtain ⟨n, t⟩ := entry
    dsimp only
    split
    · next hn =>
      have he := List.inj_on_of_nodup_map h.names_nodup hentry (mem_modes_of_get? hget) hn
      rw [(Prod.mk.inj he).2]
      rfl
    · rfl
  exact congrArg (fun modes => { m with modes }) hmodes

/-- No operation changes a finalized type. -/
theorem perform_of_finalized (h : m.Orderly) (hfinal : m.finalized = true) (op : Operation) :
    m.perform op = m := by
  obtain he | he | ⟨name, s, -, hopen, -⟩ | ⟨mode, s, change, -, hget, he⟩ := m.perform_cases op
  · exact he
  · rw [he, finalize_of_finalized hfinal]
  · simp [hfinal] at hopen
  · have hs : s.finalized = true := h.closed hfinal _ (mem_modes_of_get? hget)
    rw [he, VariableSet.perform_of_finalized hs, h.replace_self hget]

theorem perform (h : m.Orderly) (op : Operation) : (m.perform op).Orderly := by
  by_cases hfinal : m.finalized = true
  · rw [h.perform_of_finalized hfinal]
    exact h
  have hopen : m.perform op = m.finalize ∨ (m.perform op).finalized = false := by
    obtain he | he | ⟨name, s, -, -, -, -, -, he⟩ | ⟨mode, s, change, -, -, he⟩ :=
      m.perform_cases op
    · exact Or.inr (by simpa [he] using hfinal)
    · exact Or.inl he
    · exact Or.inr (by simpa [he] using hfinal)
    · exact Or.inr (by simpa [he, replace] using hfinal)
  rcases hopen with he | hopen
  · rw [he]
    exact h.finalize
  · have hregistered := perform_modes
      (P := fun name s => s.mode = name ∧ s.typePrefix = m.typePrefix)
      (fun _ s change hs => by simpa [s.perform_mode_typePrefix change] using hs)
      h.registered op fun _ _ _ htype hmode => ⟨hmode, htype⟩
    rw [← (m.perform_frame op).1] at hregistered
    exact ⟨perform_names_nodup h.names_nodup op, hregistered, by simp [hopen], by simp [hopen]⟩

/-- What is asked of a type keeps it orderly and, if it is finalized, as it is. -/
theorem serve (h : m.Orderly) (r : Request) :
    (m.serve r).1.Orderly ∧ (m.finalized = true → (m.serve r).1 = m) := by
  rcases m.serve_eq r with he | ⟨op, he⟩
  · rw [he]
    exact ⟨h, fun _ => rfl⟩
  · rw [he]
    exact ⟨h.perform op, fun hfinal => h.perform_of_finalized hfinal op⟩

theorem serveAll (h : m.Orderly) (requests : List Request) : (m.serveAll requests).Orderly := by
  induction requests generalizing m with
  | nil => exact h
  | cons r rest ih => exact ih (h.serve r).1

theorem serveAll_of_finalized (h : m.Orderly) (hfinal : m.finalized = true)
    (requests : List Request) : m.serveAll requests = m := by
  induction requests with
  | nil => rfl
  | cons r rest ih =>
    rw [ModeSet.serveAll, List.foldl_cons, (h.serve r).2 hfinal]
    exact ih

end Orderly

theorem finalize_finalized (m : ModeSet) : m.finalize.finalized = true := by
  unfold finalize
  split
  · assumption
  · rfl

theorem validate_finalize (m : ModeSet) : m.finalize.validate = m.validate := by
  unfold validate
  rw [finalize_of_finalized m.finalize_finalized]

theorem serve_frame (m : ModeSet) (r : Request) :
    (m.serve r).1.typePrefix = m.typePrefix ∧ (m.serve r).1.configured = m.configured := by
  rcases m.serve_eq r with he | ⟨op, he⟩
  · simp [he]
  · rw [he]
    exact m.perform_frame op

theorem serveAll_frame (m : ModeSet) (requests : List Request) :
    (m.serveAll requests).typePrefix = m.typePrefix ∧
      (m.serveAll requests).configured = m.configured := by
  induction requests generalizing m with
  | nil => exact ⟨rfl, rfl⟩
  | cons r rest ih =>
    obtain ⟨htype, hconfigured⟩ := ih (m.serve r).1
    exact ⟨htype.trans (m.serve_frame r).1, hconfigured.trans (m.serve_frame r).2⟩

/-- The life of a type, whatever has been asked of it before. An addition that fails leaves it as it
is, and each mode is registered under its own name with the prefix of the type. The first request
that finalizes the type settles its baseline, which is the configured mode if it is there and the
first one added otherwise, and whatever is asked later leaves the type as it then is: its modes, their
order and variables, the verdict of validation and the baseline. -/
theorem serveAll_lifecycle (type typePrefix : String) (baseline : Baseline)
    (earlier : List Request) :
    let m := (empty type typePrefix baseline).serveAll earlier
    (∀ name s, (∃ failure, (m.serve (.add name s)).2 = .failed failure) ↔
      m.finalized = true ∨ name ∈ m.names ∨ s.typePrefix ≠ typePrefix ∨ s.mode ≠ name) ∧
    (∀ name s failure, (m.serve (.add name s)).2 = .failed failure →
      (m.serve (.add name s)).1 = m) ∧
    m.names.Nodup ∧
    (∀ mode ∈ m.modes, mode.2.mode = mode.1 ∧ mode.2.typePrefix = typePrefix) ∧
    ∀ r : Request, r.Finalizes →
      let frozen := (m.serve r).1
      frozen.names = m.names ∧
      (∀ later, frozen.serveAll later = frozen) ∧
      (∀ later, ((frozen.serveAll later).serve .validate).2 = .verdict m.validate.2) ∧
      (∀ later, ((frozen.serveAll later).serve .baselineMode).2 = .mode frozen.chosen) ∧
      (∀ name ∈ m.names, baseline = .mode name → frozen.chosen = some name) ∧
      ((∀ name ∈ m.names, baseline ≠ .mode name) → frozen.chosen = m.names.head?) ∧
      (frozen.chosen = none ↔ m.names = []) := by
  intro m
  have hm : m.Orderly := (empty_orderly type typePrefix baseline).serveAll earlier
  obtain ⟨htype, hconfigured⟩ := (empty type typePrefix baseline).serveAll_frame earlier
  have hfailed : ∀ name s failure,
      (m.serve (.add name s)).2 = .failed failure ↔ m.add name s = .error failure := by
    intro name s failure
    cases hadd : m.add name s <;> simp [serve, hadd]
  refine ⟨fun name s => ?_, fun name s failure h => ?_, hm.names_nodup, ?_, fun r hr => ?_⟩
  · simp only [hfailed, exists_add_eq_error]
    rw [htype]
    rfl
  · simp [serve, perform, (hfailed name s failure).mp h]
  · have hregistered := hm.registered
    rwa [htype] at hregistered
  · intro frozen
    have hfrozen : frozen = m.finalize := serve_of_finalizes hr m
    have hfinal : frozen.finalized = true := hfrozen ▸ m.finalize_finalized
    have horderly : frozen.Orderly := hfrozen ▸ hm.finalize
    have hlater := horderly.serveAll_of_finalized hfinal
    have hnames : frozen.names = m.names := hfrozen ▸ m.finalize_names
    have hchosen : frozen.chosen = m.baselineOf := by
      rw [horderly.chosen_eq hfinal, hfrozen,
        baselineOf_congr m.finalize_names m.finalize_configured]
    refine ⟨hnames, hlater, fun later => ?_, fun later => ?_, ?_, ?_, ?_⟩
    · rw [hlater, hfrozen]
      exact congrArg (fun v => Answer.verdict v.2) m.validate_finalize
    · rw [hlater, ModeSet.serve, finalize_of_finalized hfinal]
    · rw [hchosen]
      exact fun name hname he => baselineOf_of_mem hname (hconfigured.trans he)
    · rw [hchosen]
      intro hlacks
      refine baselineOf_of_lacks fun name hname he => hlacks name hname ?_
      rw [← he]
      exact hconfigured.symm
    · rw [hchosen, baselineOf_eq_none]

end ModeSet

end DesignTokens
