import DesignTokens.Proofs.Filling
import DesignTokens.Proofs.Walking
import DesignTokens.Template.Standard
import Mathlib.Logic.Relation

/-! What evaluating a value can fail with, whatever platform stands behind the templates. Faults of
values and kinds that arise inside a deferred value are reported as render errors. What escapes comes
from a look-up that misreads a segment, or from a deferred value whose own computation ends in a
fault that is let pass. -/
namespace DesignTokens

open Failure

theorem Failure.Passes.not_isRender_or_isReported {failure : Failure} (h : failure.Passes) :
    ¬ (failure.IsRender ∨ failure.IsReported) := by
  rintro (⟨fault, rfl⟩ | hreported)
  · exact h.1
  · exact h.2 hreported

/-- A look-up fails with a render error, or it has misread a segment of the path. -/
theorem lookup_failsWith (theme : Value) (path : String) :
    FailsWith (fun e => e.IsRender ∨
      ∃ segment, Misleads segment ∧ e = .value (.notAnInteger 10 segment)) (lookup theme path) := by
  intro e he
  obtain ⟨before, segment, after, node, -, -, hstuck⟩ := lookup_eq_error.mp he
  cases hstuck with
  | misled _ hmisleads => exact Or.inr ⟨segment, hmisleads, rfl⟩
  | _ => exact Or.inl ⟨_, rfl⟩

namespace Deferred

variable {d : Deferred} {theme : Value} {failure : Failure}
  {evaluate evaluate' : Value → Except Failure Value}

/-- The values that a deferred value computes its result from. -/
def parts : Deferred → List Value
  | alpha color _ => [color]
  | lighten color _ => [color]
  | darken color _ => [color]
  | format _ parts => parts
  | described _ _ _ => []

theorem colorText_failsWith {P : Failure → Prop} {v : Value} (h : FailsWith P (evaluate v))
    (hreported : ∀ e, e.IsReported → P e) (hcolor : ∀ found, P (.render (.notAColor found))) :
    FailsWith P (colorText evaluate v) := by
  refine h.bind fun found _ => ?_
  split
  · simp
  · exact (found.quoted?_failsWith.mono hreported).bind fun _ _ => by simp [hcolor]

theorem failsWith_text {P Q : Failure → Prop} {text : Except Failure String} (h : FailsWith Q text)
    (hQ : ∀ e, Q e → P e) : FailsWith P (text >>= fun s => pure (Value.text s)) :=
  (h.mono hQ).bind fun _ _ => by simp

/-- Faults that are reported become render errors, and all other failures stay as they are. -/
theorem blame_cases (d : Deferred) (failure : Failure) :
    (d.blame failure).IsRender ∨ d.blame failure = failure ∧ ¬ failure.IsReported := by
  cases failure with
  | token e => exact Or.inr ⟨rfl, not_false⟩
  | fault fault =>
    unfold blame
    split
    · exact Or.inl ⟨_, rfl⟩
    · next f _ hf =>
      cases hf
      split
      · exact Or.inl ⟨_, rfl⟩
      · next hreported => exact Or.inr ⟨rfl, hreported⟩
    · next h => exact absurd rfl (h fault)

theorem blame_ne_recursion (d : Deferred) (failure : Failure) :
    d.blame failure ≠ .fault .recursion := by
  rcases d.blame_cases failure with ⟨fault, hrender⟩ | ⟨hsame, hreported⟩
  · rw [hrender]
    simp [render, Failure.of]
  · rw [hsame]
    rintro rfl
    exact hreported rfl

theorem blame_of_passes (h : failure.Passes) : d.blame failure = failure := by
  unfold blame
  split
  · exact absurd rfl h.2
  · exact if_neg h.2
  · rfl

section Run

variable [Platform]

theorem run_congr (h : ∀ p ∈ d.parts, evaluate p = evaluate' p) :
    d.run evaluate theme = d.run evaluate' theme := by
  cases d with
  | format template parts =>
    have hparts : parts.mapM evaluate = parts.mapM evaluate' := mapM_congr h
    simp only [run, hparts]
  | described description name action => rfl
  | _ =>
    have hcolor := h _ (List.mem_singleton_self _)
    simp only [run, colorText, hcolor]

/-- The result of a deferred value whose parts have given values. -/
def runWith (theme : Value) (values : Value → Value) (d : Deferred) : Except Failure Value :=
  d.run (fun p => .ok (values p)) theme

/-- A deferred value fails as one of its parts does, or its parts have values and it fails with
those. -/
theorem run_eq_error (h : d.run evaluate theme = .error failure) :
    (∃ p ∈ d.parts, evaluate p = .error failure) ∨
      ∃ values, (∀ p ∈ d.parts, evaluate p = .ok (values p)) ∧
        d.runWith theme values = .error failure := by
  by_cases hall : ∀ p ∈ d.parts, ∃ x, evaluate p = .ok x
  · choose! values hvalues using hall
    exact Or.inr ⟨values, hvalues, by rw [← h, runWith, run_congr hvalues]⟩
  · -- The failure of a part is met before anything is computed.
    left
    have hcolor : ∀ {color : Value} {f : String → Except Failure Value},
        (colorText evaluate color >>= f) = .error failure → (¬ ∃ x, evaluate color = .ok x) →
        evaluate color = .error failure := by
      intro color f h hnone
      cases hx : evaluate color with
      | ok x => exact absurd ⟨x, hx⟩ hnone
      | error e => simpa [colorText, hx] using h
    cases d with
    | format template parts =>
      cases hm : parts.mapM evaluate with
      | ok vs => exact absurd (exists_mapM_eq_ok.mp ⟨vs, hm⟩) hall
      | error e =>
        obtain ⟨p, hp, he⟩ := mapM_eq_error hm
        have hfailure : e = failure := by simpa [run, hm] using h
        exact ⟨p, hp, hfailure ▸ he⟩
    | described description name action => exact absurd (by simp [parts]) hall
    | _ => exact ⟨_, List.mem_singleton_self _, hcolor h (by simpa [parts] using hall)⟩

section Own

variable (theme : Value) (values : Value → Value)

/-- With a colour given, a changed colour lets a fault pass only if the amount is too great. -/
theorem runWith_color_failsWith (color amount : Value)
    (hd : d ∈ [alpha color amount, lighten color amount, darken color amount]) :
    FailsWith (fun e => (e.IsRender ∨ e.IsReported) ∨ e = .fault .overflow ∧ amount.IsHuge)
      (d.runWith theme values) := by
  have hcolor : FailsWith
      (fun e => (e.IsRender ∨ e.IsReported) ∨ e = .fault .overflow ∧ amount.IsHuge)
      (colorText (fun p => .ok (values p)) color) :=
    colorText_failsWith (failsWith_ok _) (fun _ he => Or.inl (Or.inr he))
      fun found => Or.inl (Or.inl ⟨_, rfl⟩)
  simp only [List.mem_cons, List.not_mem_nil, or_false] at hd
  rcases hd with rfl | rfl | rfl
  · exact hcolor.bind fun text _ =>
      failsWith_text (Color.setAlpha_failsWith text amount) fun _ he => he.imp_left Or.inr
  · exact hcolor.bind fun text _ =>
      failsWith_text (Color.moveLightness_failsWith text amount) fun _ he => he.imp_left Or.inr
  · refine hcolor.bind fun text _ => ?_
    refine (amount.negated_failsWith.mono fun _ he => Or.inl (Or.inr he)).bind fun delta hdelta => ?_
    refine failsWith_text (Color.moveLightness_failsWith text delta) fun e he => ?_
    exact he.imp Or.inr (And.imp_right (Value.isHuge_of_negated hdelta))

theorem runWith_format (template : String) (parts : List Value) :
    (format template parts).runWith theme values =
      (Template.fill template (parts.map values)).map Value.text := by
  have hparts : parts.mapM (fun p => (.ok (values p) : Except Failure Value)) =
      .ok (parts.map values) := List.mapM_pure
  rw [runWith, run, hparts, ok_bind]
  cases Template.fill template (parts.map values) <;> rfl

/-- Given the values of its parts, a deferred value fails with a render error or in a fault. -/
theorem runWith_failsWith (d : Deferred) :
    FailsWith (fun e => e.IsRender ∨ e.IsFault) (d.runWith theme values) := by
  have hcolor (color amount : Value)
      (hd : d ∈ [alpha color amount, lighten color amount, darken color amount]) :
      FailsWith (fun e => e.IsRender ∨ e.IsFault) (d.runWith theme values) := by
    refine (runWith_color_failsWith theme values color amount hd).mono ?_
    rintro e ((he | he) | ⟨rfl, -⟩)
    · exact Or.inl he
    · exact Or.inr he.isFault
    · exact Or.inr trivial
  cases d with
  | alpha color amount => exact hcolor color amount (by simp)
  | lighten color amount => exact hcolor color amount (by simp)
  | darken color amount => exact hcolor color amount (by simp)
  | format template parts =>
    rw [runWith_format]
    exact ((Template.fill_failsWith template _).mono fun _ => Or.inr).map
  | described description name action =>
    cases action with
    | give v => exact failsWith_ok v
    | find path =>
      refine (lookup_failsWith theme path).mono fun e he => he.imp_right ?_
      rintro ⟨segment, -, rfl⟩
      trivial
    | again => exact failsWith_ok _
    | fail announced =>
      refine failsWith_error.mpr ?_
      cases announced with
      | render text => exact Or.inl ⟨_, rfl⟩
      | _ => exact Or.inr trivial

end Own

/-- Whether a deferred value fails so for some values of its parts. -/
def CanFail (theme : Value) (d : Deferred) (failure : Failure) : Prop :=
  ∃ values, d.runWith theme values = .error failure

/-- A changed colour can let a fault pass exactly if its amount is an integer beyond all numbers. -/
theorem canFail_color_iff {color amount : Value}
    (hd : d ∈ [alpha color amount, lighten color amount, darken color amount])
    (hpasses : failure.Passes) :
    d.CanFail theme failure ↔ failure = .fault .overflow ∧ amount.IsHuge := by
  constructor
  · rintro ⟨values, hfails⟩
    rcases runWith_color_failsWith theme values color amount hd failure hfails with hother | h
    · exact absurd hother hpasses.not_isRender_or_isReported
    · exact h
  · rintro ⟨rfl, hhuge⟩
    obtain ⟨c, hwhite⟩ : ∃ c, Color.readColor "#fff" = .ok c := ⟨_, rfl⟩
    refine ⟨fun _ => .text "#fff", ?_⟩
    simp only [List.mem_cons, List.not_mem_nil, or_false] at hd
    rcases hd with rfl | rfl | rfl
    · change Color.setAlpha "#fff" amount >>= _ = _
      rw [Color.setAlpha_of_isHuge hwhite hhuge, error_bind]
    · change Color.moveLightness "#fff" amount >>= _ = _
      rw [Color.moveLightness_of_isHuge hwhite hhuge, error_bind]
    · obtain ⟨delta, hdelta, hhuge⟩ := Value.negated_of_isHuge hhuge
      change amount.negated >>= (fun delta => Color.moveLightness "#fff" delta >>= _) = _
      rw [hdelta, ok_bind, Color.moveLightness_of_isHuge hwhite hhuge, error_bind]

theorem canFail_plain_iff {template : String} {parts : List Value}
    (h : (Template.read template.toList).IsPlain) (hpasses : failure.Passes) :
    (format template parts).CanFail theme failure ↔
      failure = .fault .index ∧ parts.length < (Template.read template.toList).slotCount := by
  simp only [CanFail, runWith_format, map_eq_error]
  constructor
  · rintro ⟨values, hfails⟩
    rcases Template.fill_plain_failsWith h failure hfails with hreported | hmissing
    · exact absurd (Or.inr hreported) hpasses.not_isRender_or_isReported
    · simpa using hmissing
  · rintro ⟨rfl, hcount⟩
    refine ⟨fun _ => .null, Template.fill_plain_of_lt h (fun v hv => ?_) (by simpa using hcount)⟩
    obtain ⟨-, -, rfl⟩ := List.mem_map.mp hv
    rfl

end Run

end Deferred

section Evaluation

variable [Platform]

/-- A link of a chain of evaluation: from a reference to what it leads to, from a deferred value to
its result. -/
inductive Next (theme : Value) : Value → Value → Prop where
  | reference {path : String} {x : Value} (h : lookup theme path = .ok x) : Next theme (.ref path) x
  | result {v r : Value} {d : Deferred} {fuel : Nat} (hd : Token.of v = .deferred d)
      (h : d.run (fun part => evaluateFrom theme 0 part fuel) theme = .ok r) : Next theme v r

/-- A value leads to another along a chain of evaluation. -/
def Leads (theme : Value) : Value → Value → Prop := Relation.ReflTransGen (Next theme)

/-- Evaluating a value comes to another, along the chain or as a part of a deferred value. -/
def Reaches (theme : Value) : Value → Value → Prop :=
  Relation.ReflTransGen fun v w => Next theme v w ∨ ∃ d, Token.of v = .deferred d ∧ w ∈ d.parts

/-- How a failure that is no render error escapes from evaluating a value: a look-up on the chain
misreads a segment, or a deferred value that is reached fails in a fault that passes once its parts
have their values. -/
inductive Escape (theme v : Value) : Failure → Prop where
  | misread {path segment : String} (hleads : Leads theme v (.ref path))
      (hfails : lookup theme path = .error (.value (.notAnInteger 10 segment)))
      (hmisleads : Misleads segment) :
      Escape theme v (.value (.notAnInteger 10 segment))
  | passes {w : Value} {d : Deferred} {values : Value → Value} {fuel : Nat} {failure : Failure}
      (hreaches : Reaches theme v w) (hd : Token.of w = .deferred d)
      (hparts : ∀ p ∈ d.parts, evaluateFrom theme 0 p fuel = .ok (values p))
      (hfails : d.runWith theme values = .error failure) (hpasses : failure.Passes) :
      Escape theme v failure

section Chains

variable {theme v w : Value} {failure : Failure}

theorem Escape.next (h : Next theme v w) (hw : Escape theme w failure) : Escape theme v failure := by
  cases hw with
  | misread hleads hfails hmisleads => exact .misread (.head h hleads) hfails hmisleads
  | passes hreaches hd hparts hfails hpasses =>
    exact .passes (.head (Or.inl h) hreaches) hd hparts hfails hpasses

theorem Escape.part {d : Deferred} (hd : Token.of v = .deferred d) (hpart : w ∈ d.parts)
    (hw : Escape theme w failure) (hreported : ¬ failure.IsReported) : Escape theme v failure := by
  cases hw with
  | misread => exact absurd (isReported_value _) hreported
  | passes hreaches hd' hparts hfails hpasses =>
    exact .passes (.head (Or.inr ⟨d, hd, hpart⟩) hreaches) hd' hparts hfails hpasses

theorem evaluateFrom_failsWith (theme v : Value) (depth fuel : Nat) :
    FailsWith (fun e => e.IsRender ∨ e = .fault .recursion ∨ Escape theme v e)
      (evaluateFrom theme depth v fuel) := by
  induction fuel generalizing depth v with
  | zero => simp [evaluateFrom]
  | succ fuel ih =>
    rw [evaluateFrom]
    split
    · exact failsWith_error.mpr (Or.inl ⟨_, rfl⟩)
    · split
      · simp
      · next path hpath =>
        obtain rfl : v = .ref path := by cases v <;> simp_all [Token.of]
        intro e he
        rcases bind_eq_error.mp he with he | ⟨x, hx, he⟩
        · refine (lookup_failsWith theme path e he).imp_right ?_
          rintro ⟨segment, hmisleads, rfl⟩
          exact Or.inr (.misread .refl he hmisleads)
        · exact (ih x _ e he).imp_right (Or.imp_right (.next (.reference hx)))
      · next d hd =>
        split
        · next r hr =>
          exact (ih r _).mono fun e he => he.imp_right (Or.imp_right (.next (.result hd hr)))
        · next failure hfails =>
          refine failsWith_error.mpr ?_
          rcases d.blame_cases failure with hrender | ⟨hsame, hreported⟩
          · exact Or.inl hrender
          · rw [hsame]
            rcases Deferred.run_eq_error hfails with ⟨p, hp, he⟩ | ⟨values, hvalues, he⟩
            · exact (ih p 0 failure he).imp_right
                (Or.imp_right fun h => h.part hd hp hreported)
            · have hown := Deferred.runWith_failsWith theme values d failure he
              exact hown.imp_right fun hfault =>
                Or.inr (.passes .refl hd hvalues he ⟨hfault, hreported⟩)
      · exact failsWith_error.mpr (Or.inl ⟨_, rfl⟩)

/-- A chain cannot outgrow its nesting: it is given up as too deep before that. -/
theorem evaluateFrom_ne_recursion {depth fuel : Nat} (hdepth : depth ≤ maxDepth + 1)
    (hfuel : maxDepth + 1 < depth + fuel) :
    evaluateFrom theme depth v fuel ≠ .error (.fault .recursion) := by
  induction fuel generalizing depth v with
  | zero => omega
  | succ fuel ih =>
    rw [evaluateFrom]
    split
    · simp [render, Failure.of]
    · next hdeep =>
      have hnext (x : Value) : evaluateFrom theme (depth + 1) x fuel ≠ .error (.fault .recursion) :=
        ih (by omega) (by omega)
      split
      · simp
      · next path _ =>
        intro he
        rcases bind_eq_error.mp he with he | ⟨x, -, he⟩
        · rcases lookup_failsWith theme path _ he with ⟨fault, hfault⟩ | ⟨segment, -, hfault⟩
          · cases hfault
          · cases hfault
        · exact hnext x he
      · next d _ =>
        split
        · exact hnext _
        · next failure hfails =>
          exact fun he => d.blame_ne_recursion failure (Except.error.inj he)
      · simp [render, Failure.of]

end Chains

end Evaluation

/-- A template with two slots and one part. -/
def spareSlot : Value := .deferred (.format "{} {}" [.ref "base"])

end DesignTokens
