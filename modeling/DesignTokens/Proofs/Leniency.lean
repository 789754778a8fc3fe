import DesignTokens.Proofs.LastWriter
import DesignTokens.Proofs.Stopping

/-! One tree added to a set twice: by a set that refuses repeated names, and by one that lets the last
declaration win. Both insert leaf by leaf and stay in lock step up to the first repeated name. There
the strict set stops, and the lenient one warns before it goes on. -/
namespace DesignTokens.VariableSet

/-- The set, with repeated names refused or let pass. -/
def withStrict (s : VariableSet) (strict : Bool) : VariableSet := { s with strict }

section

variable (s : VariableSet) (strict : Bool)

@[simp] theorem nameAt_withStrict (path : List String) :
    (s.withStrict strict).nameAt path = s.nameAt path := rfl

@[simp] theorem mode_withStrict : (s.withStrict strict).mode = s.mode := rfl

@[simp] theorem resolve_withStrict (v : Value) (referrer : String) :
    (s.withStrict strict).resolve v referrer = s.resolve v referrer := rfl

theorem store_withStrict (path : List String) (value : Value) :
    (s.withStrict strict).store path value = (s.store path value).withStrict strict := rfl

end

/-- A value fails to resolve for no repeated name. -/
theorem resolve_ne_duplicate {s : VariableSet} {v : Value} {referrer name mode : String} :
    s.resolve v referrer ≠ .error (.of (.duplicateVariable name mode)) := by
  intro h
  unfold resolve at h
  split at h
  · cases h
  · cases h
  · have hfailure := (resolveReference_eq_error.mp h).2
    simp [Failure.of] at hfailure
  · simp [Failure.of, Failure.kind] at h

namespace Flattening

/-- The flattening, with repeated names refused or let pass from here on. -/
def withStrict (f : Flattening) (strict : Bool) : Flattening :=
  { f with set := f.set.withStrict strict }

/-- A set that the insertion of leaves passes through: the one it starts from, or one that it has
after a leaf. -/
inductive Passes : Flattening → List Leaf → VariableSet → Prop where
  | here (f : Flattening) (ls : List Leaf) : Passes f ls f.set
  | next {f g : Flattening} {leaf : Leaf} {ls : List Leaf} {t : VariableSet}
      (hinsert : f.insert leaf = (g, none)) (hrest : Passes g ls t) : Passes f (leaf :: ls) t

variable {f : Flattening} {leaf : Leaf} {ls : List Leaf}

/-- What has been told stays told. -/
theorem warnings_prefix (f : Flattening) (ls : List Leaf) :
    f.warnings <+: (f.insertAll ls).1.warnings := by
  have hstep : ∀ (f : Flattening) leaf, f.warnings <+: (f.insert leaf).1.warnings := by
    intro f leaf
    have hwarned : f.warnings <+: f.warned leaf := by
      unfold warned
      split
      · exact List.prefix_append _ _
      · exact List.prefix_rfl
    obtain ⟨-, -, he⟩ | ⟨-, ⟨failure, -, he⟩ | ⟨value, -, he⟩⟩ := f.insert_cases leaf
    · simp [he]
    · rwa [he]
    · rwa [he]
  induction ls generalizing f with
  | nil => exact List.prefix_rfl
  | cons l rest ih =>
    cases hl : (f.insert l).2 with
    | some failure =>
      rw [insertAll_cons_of_refused hl]
      exact hstep f l
    | none =>
      rw [insertAll_cons_of_accepted hl]
      exact (hstep f l).trans (ih _)

/-- A leaf whose name has not been declared is treated alike, and nothing is told of it. -/
theorem insert_withStrict_of_new (hnew : f.set.nameAt leaf.1 ∉ f.seen) (strict : Bool) :
    (f.withStrict strict).insert leaf = ((f.insert leaf).1.withStrict strict, (f.insert leaf).2) ∧
      (f.insert leaf).1.warnings = f.warnings ∧
      ∀ name mode, (f.insert leaf).2 ≠ some (.of (.duplicateVariable name mode)) := by
  cases hvalue : f.set.resolve leaf.2 (f.set.nameAt leaf.1) with
  | error failure =>
    refine ⟨?_, ?_, fun name mode h => ?_⟩
    · simp [insert, withStrict, hnew, hvalue]
    · simp [insert, hnew, hvalue]
    · obtain rfl : failure = .of (.duplicateVariable name mode) := by
        simpa [insert, hnew, hvalue] using h
      exact resolve_ne_duplicate hvalue
  | ok value =>
    refine ⟨?_, ?_, fun name mode h => ?_⟩
    · simp [insert, withStrict, hnew, hvalue, store_withStrict]
    · simp [insert, hnew, hvalue]
    · simp [insert, hnew, hvalue] at h

/-- A name that has been declared stops a strict flattening, and a lenient one tells it first. -/
theorem insert_of_repeated (hseen : f.set.nameAt leaf.1 ∈ f.seen) (hstrict : f.set.strict = true) :
    f.insert leaf = (f, some (.of (.duplicateVariable (f.set.nameAt leaf.1) f.set.mode))) ∧
      ((f.withStrict false).insert leaf).1.warnings =
        f.warnings ++ [.declaredTwice (f.set.nameAt leaf.1) f.set.mode] := by
  refine ⟨by simp [insert, hseen, hstrict], ?_⟩
  obtain ⟨-, hfalse, -⟩ | ⟨-, ⟨failure, -, he⟩ | ⟨value, -, he⟩⟩ :=
    (f.withStrict false).insert_cases leaf
  · cases hfalse
  · rw [he]
    simp [warned, withStrict, hseen]
  · rw [he]
    simp [warned, withStrict, hseen]

/-- A strict flattening and a lenient one stay in lock step. Either the strict one stops at a
repeated name, and the lenient one has passed through its set and tells this name first; or both do
the same, and nothing is told. -/
theorem insertAll_lockstep (hstrict : f.set.strict = true) (ls : List Leaf) :
    (∃ name, (f.insertAll ls).2 = some (.of (.duplicateVariable name f.set.mode)) ∧
      Passes (f.withStrict false) ls ((f.insertAll ls).1.set.withStrict false) ∧
      f.warnings ++ [.declaredTwice name f.set.mode] <+:
        ((f.withStrict false).insertAll ls).1.warnings) ∨
    ((∀ name mode, (f.insertAll ls).2 ≠ some (.of (.duplicateVariable name mode))) ∧
      (f.withStrict false).insertAll ls =
        ((f.insertAll ls).1.withStrict false, (f.insertAll ls).2) ∧
      (f.insertAll ls).1.warnings = f.warnings) := by
  induction ls generalizing f with
  | nil => exact Or.inr ⟨nofun, rfl, rfl⟩
  | cons l rest ih =>
    by_cases hseen : f.set.nameAt l.1 ∈ f.seen
    · obtain ⟨hrefused, htold⟩ := insert_of_repeated hseen hstrict
      have hstop : f.insertAll (l :: rest) = f.insert l :=
        insertAll_cons_of_refused (by rw [hrefused])
      rw [hstop, hrefused]
      refine Or.inl ⟨_, rfl, .here _ _, ?_⟩
      rw [← htold]
      cases hl : ((f.withStrict false).insert l).2 with
      | some failure => simp [insertAll_cons_of_refused hl]
      | none =>
        rw [insertAll_cons_of_accepted hl]
        exact warnings_prefix _ rest
    · obtain ⟨hlenient, hsilent, hother⟩ := insert_withStrict_of_new hseen false
      cases hl : (f.insert l).2 with
      | some failure =>
        have hl' : ((f.withStrict false).insert l).2 = some failure := by rw [hlenient, hl]
        rw [insertAll_cons_of_refused hl, insertAll_cons_of_refused hl', hlenient]
        exact Or.inr ⟨hother, rfl, hsilent⟩
      | none =>
        have hl' : ((f.withStrict false).insert l).2 = none := by rw [hlenient, hl]
        obtain ⟨⟨value, hset⟩, -⟩ := insert_of_accepted hl
        have hkept : (f.insert l).1.set.strict = true ∧ (f.insert l).1.set.mode = f.set.mode := by
          rw [hset]
          exact ⟨hstrict, rfl⟩
        rw [insertAll_cons_of_accepted hl, insertAll_cons_of_accepted hl', hlenient]
        have hrest := ih hkept.1
        rw [hkept.2, hsilent] at hrest
        refine hrest.imp_left fun ⟨name, hfailure, hpasses, htold⟩ => ?_
        exact ⟨name, hfailure, .next (hlenient.trans (Prod.ext rfl hl)) hpasses, htold⟩

/-- So do flattenings of a tree, also where a key without a text ends them. -/
theorem insertTree_lockstep (hstrict : f.set.strict = true) (es : List (Value × Value)) :
    (∃ name, (f.insertTree es).2 = some (.of (.duplicateVariable name f.set.mode)) ∧
      Passes (f.withStrict false) (readableLeaves es) ((f.insertTree es).1.set.withStrict false) ∧
      f.warnings ++ [.declaredTwice name f.set.mode] <+:
        ((f.withStrict false).insertTree es).1.warnings) ∨
    ((∀ name mode, (f.insertTree es).2 ≠ some (.of (.duplicateVariable name mode))) ∧
      (f.withStrict false).insertTree es =
        ((f.insertTree es).1.withStrict false, (f.insertTree es).2) ∧
      (f.insertTree es).1.warnings = f.warnings) := by
  simp only [insertTree_fst]
  rcases insertAll_lockstep hstrict (readableLeaves es) with
    ⟨name, hfailure, hpasses, htold⟩ | ⟨hother, hsame, hsilent⟩
  · exact Or.inl ⟨name, insertTree_of_refused hfailure, hpasses, htold⟩
  · have hsnd := congrArg Prod.snd hsame
    have hset : ((f.withStrict false).insertTree es).1 =
        (f.insertAll (readableLeaves es)).1.withStrict false := by
      rw [insertTree_fst, hsame]
    cases h : (f.insertAll (readableLeaves es)).2 with
    | none =>
      rw [insertTree_of_accepted h]
      refine Or.inr ⟨fun name mode => ?_, Prod.ext hset ?_, hsilent⟩
      · cases textlessAmong? es <;> simp [Failure.of, Failure.value]
      · exact insertTree_of_accepted (hsnd.trans h)
    | some failure =>
      rw [insertTree_of_refused h]
      exact Or.inr ⟨h ▸ hother, Prod.ext hset (insertTree_of_refused (hsnd.trans h)), hsilent⟩

end Flattening

/-- A set that the addition of a tree passes through. -/
def PassesThrough (s : VariableSet) (tree : Value) (t : VariableSet) : Prop :=
  ∃ es, tree = .map es ∧ Flattening.Passes ⟨s, [], []⟩ (readableLeaves es) t

/-- Refusing repeated names or letting them pass makes a difference for the trees that have one, and
for no others. -/
theorem add_lockstep (s : VariableSet) (tree : Value) :
    (∃ name, ((s.withStrict true).add tree).failure =
        some (.of (.duplicateVariable name s.mode)) ∧
      (s.withStrict false).PassesThrough tree (((s.withStrict true).add tree).set.withStrict false) ∧
      [.declaredTwice name s.mode] <+: ((s.withStrict false).add tree).warnings) ∨
    ((∀ name mode, ((s.withStrict true).add tree).failure ≠
        some (.of (.duplicateVariable name mode))) ∧
      (s.withStrict false).add tree =
        ⟨((s.withStrict true).add tree).set.withStrict false, [],
          ((s.withStrict true).add tree).failure⟩) := by
  cases hfinal : s.finalized with
  | true =>
    refine Or.inr ⟨fun name mode h => ?_, by simp [add, withStrict, hfinal]⟩
    simp [add, withStrict, hfinal, Failure.of] at h
  | false =>
    have hopen : ∀ strict, (s.withStrict strict).finalized = false := fun _ => hfinal
    cases tree with
    | map es =>
      have hrun := Flattening.insertTree_lockstep (f := ⟨s.withStrict true, [], []⟩) rfl es
      have hlenient : Flattening.withStrict ⟨s.withStrict true, [], []⟩ false =
          ⟨s.withStrict false, [], []⟩ := rfl
      rw [hlenient] at hrun
      simp only [add, hopen, Bool.false_eq_true, if_false]
      refine hrun.imp ?_ ?_
      · rintro ⟨name, hfailure, hpasses, htold⟩
        exact ⟨name, hfailure, ⟨es, rfl, by simpa using hpasses⟩, by simpa using htold⟩
      · rintro ⟨hother, hsame, hsilent⟩
        refine ⟨hother, ?_⟩
        rw [hsame]
        exact congrArg (Outcome.mk _ · _) hsilent
    | _ =>
      refine Or.inr ⟨fun name mode h => ?_, ?_⟩
      · simp [add, hopen, Failure.of, Failure.kind] at h
      · simp [add, withStrict, hfinal]

/-- Strict and lenient additions differ on repeated names only. Where a strict set takes a tree, the
lenient one takes it too, to the same set and without a word. Where a strict set stops at a reference
without a value, the lenient one stops there, with the same failure, at the same set, without a word.
Where a strict set stops at a repeated name, the lenient one has passed through the set that is left,
and this name is the first that it tells. -/
theorem add_strict_lenient (s : VariableSet) (tree : Value) :
    let strictly := (s.withStrict true).add tree
    let leniently := (s.withStrict false).add tree
    (strictly.failure = none → leniently = ⟨strictly.set.withStrict false, [], none⟩) ∧
    (∀ name mode referrer,
      strictly.failure = some (.of (.undefinedReference name mode referrer)) →
      leniently = ⟨strictly.set.withStrict false, [],
        some (.of (.undefinedReference name mode referrer))⟩) ∧
    (∀ name mode, strictly.failure = some (.of (.duplicateVariable name mode)) →
      (s.withStrict false).PassesThrough tree (strictly.set.withStrict false) ∧
        leniently.warnings.head? = some (.declaredTwice name mode)) ∧
    ((∀ name mode, strictly.failure ≠ some (.of (.duplicateVariable name mode))) →
      leniently = ⟨strictly.set.withStrict false, [], strictly.failure⟩) := by
  intro strictly leniently
  obtain ⟨name, hfailure, hpasses, htold⟩ | ⟨hother, hsame⟩ := s.add_lockstep tree
  · have hfirst : leniently.warnings.head? = some (.declaredTwice name s.mode) := by
      obtain ⟨others, hothers⟩ := htold
      simp [leniently, ← hothers]
    refine ⟨fun h => ?_, fun _ _ _ h => ?_, fun name' mode h => ?_, fun h => ?_⟩
    · cases hfailure.symm.trans h
    · cases hfailure.symm.trans h
    · cases hfailure.symm.trans h
      exact ⟨hpasses, hfirst⟩
    · exact absurd hfailure (h _ _)
  · refine ⟨fun h => ?_, fun _ _ _ h => ?_, fun name mode h => ?_, fun _ => hsame⟩
    · exact h ▸ hsame
    · exact h ▸ hsame
    · exact absurd h (hother name mode)

end DesignTokens.VariableSet
