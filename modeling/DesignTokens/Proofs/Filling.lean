import DesignTokens.Evaluation
import DesignTokens.Proofs.Outcomes

/-! What computing from given values can fail with, whatever platform stands behind the templates.
Filling a template and changing a colour end in faults of a value or of its kind, which evaluation
reports, or in others, which it lets pass. A colour lets one pass only for an amount beyond all
numbers, and a template of empty slots only for a missing part. -/
namespace DesignTokens

namespace Failure

/-- Whether a failure is a fault. -/
def IsFault : Failure → Prop
  | .token _ => False
  | .fault _ => True

/-- Whether a failure is a fault that evaluation reports as the failure of a deferred value. -/
def IsReported : Failure → Prop
  | .token _ => False
  | .fault f => f.isReported

/-- Whether a failure is a fault that evaluation lets pass. -/
def Passes (failure : Failure) : Prop := failure.IsFault ∧ ¬ failure.IsReported

@[simp] theorem isFault_fault (fault : Fault) : (Failure.fault fault).IsFault := trivial

@[simp] theorem isFault_value (fault : ValueFault) : (Failure.value fault).IsFault := trivial

@[simp] theorem isFault_kind (fault : KindFault) : (Failure.kind fault).IsFault := trivial

@[simp] theorem isReported_value (fault : ValueFault) : (Failure.value fault).IsReported := rfl

@[simp] theorem isReported_kind (fault : KindFault) : (Failure.kind fault).IsReported := rfl

theorem IsReported.isFault {failure : Failure} (h : failure.IsReported) : failure.IsFault := by
  cases failure with
  | token => exact h
  | fault => trivial

end Failure

theorem FailsWith.fault {α : Type} {x : Except Failure α} (h : FailsWith Failure.IsReported x) :
    FailsWith Failure.IsFault x := h.mono fun _ => Failure.IsReported.isFault

theorem failsWith_mapError_fault {α : Type} (x : Except Fault α) :
    FailsWith Failure.IsFault (x.mapError .fault) := by
  cases x <;> simp [Except.mapError]

namespace Value

open Failure

theorem plain?_failsWith (v : Value) : FailsWith IsReported v.plain? := by
  unfold plain?
  split <;> simp

theorem quoted?_failsWith (v : Value) : FailsWith IsReported v.quoted? := by
  unfold quoted?
  split <;> simp

end Value

namespace Template

open Failure

variable {parts : List Value} {numbering : Numbering} {name : List Char} {v : Value}

@[simp] theorem failsWith_stop {α : Type} {P : Failure → Prop} {fault : TemplateFault} :
    FailsWith P (stop fault : Except Failure α) ↔ P (.value (.template fault)) := failsWith_error

@[simp] theorem stop_bind {α β : Type} {fault : TemplateFault} {f : α → Except Failure β} :
    (stop fault >>= f) = stop fault := rfl

theorem number?_failsWith (name : List Char) : FailsWith IsReported (number? name) := by
  unfold number?
  split
  · simp
  · simp
  · split <;> simp

theorem part_failsWith (n : Nat) : FailsWith IsFault (part parts n) := by
  unfold part
  split <;> simp

theorem choose_failsWith : FailsWith IsFault (choose parts numbering name) := by
  refine (number?_failsWith name).fault.bind fun number _ => ?_
  split
  · split
    · simp
    · exact (part_failsWith _).bind fun v _ => by simp
  · split
    · split
      · simp
      · exact (part_failsWith _).bind fun v _ => by simp
      · exact (part_failsWith _).bind fun v _ => by simp
    · simp

theorem itemOf_failsWith (items : List Value) (n : Nat) : FailsWith IsFault (itemOf items n) := by
  unfold itemOf
  split <;> simp

theorem itemOfValue_failsWith (v : Value) (name : List Char) (number : Option Nat) :
    FailsWith IsFault (itemOfValue v name number) := by
  unfold itemOfValue
  split
  · exact itemOf_failsWith _ _
  · exact itemOf_failsWith _ _
  · exact itemOf_failsWith _ _
  · split <;> simp
  · dsimp only
    split <;> simp
  all_goals simp

section Slots

variable [Platform]

theorem item_failsWith (p : Part) (name : List Char) : FailsWith IsFault (item p name) := by
  refine (number?_failsWith name).fault.bind fun number _ => ?_
  cases p with
  | inl v => exact (itemOfValue_failsWith v name number).bind fun _ _ => by simp
  | inr o => exact failsWith_mapError_fault _

theorem follow_failsWith (fuel : Nat) (p : Part) (path : List Char) :
    FailsWith IsFault (follow fuel p path) := by
  induction fuel generalizing p path with
  | zero => simp [follow]
  | succ fuel ih =>
    unfold follow
    split
    · simp
    · dsimp only
      split
      · simp
      · exact (failsWith_mapError_fault _).bind fun q _ => ih _ _
    · dsimp only
      split
      · simp
      · refine (number?_failsWith _).fault.bind fun _ _ => ?_
        split
        · simp
        · exact (item_failsWith _ _).bind fun q _ => ih _ _
    · simp

theorem find_failsWith : FailsWith IsFault (find parts numbering name) :=
  choose_failsWith.bind fun _ _ => (follow_failsWith _ _ _).bind fun _ _ => by simp

theorem textOf_failsWith (form : TextForm) (p : Part) : FailsWith IsFault (textOf form p) := by
  cases p with
  | inl v =>
    rw [textOf]
    split
    · exact v.plain?_failsWith.fault
    · exact v.quoted?_failsWith.fault
  | inr o => exact failsWith_mapError_fault _

theorem convert_failsWith (p : Part) (conversion : Option Char) :
    FailsWith IsFault (convert p conversion) := by
  unfold convert
  split
  · simp
  · exact (textOf_failsWith _ p).bind fun _ _ => by simp
  · exact (textOf_failsWith _ p).bind fun _ _ => by simp
  · exact (textOf_failsWith _ p).bind fun _ _ => by simp
  · simp

end Slots

end Template

theorem Binary64.ofRatio_infinite {negative negative' : Bool} {num den : Nat} {s : Bool}
    (h : ofRatio negative num den = .infinite s) :
    ofRatio negative' num den = .infinite negative' := by
  unfold ofRatio at h ⊢
  split at h
  · cases h
  · next hnum =>
    rw [if_neg hnum]
    dsimp only at h ⊢
    -- The rounded mantissa may have carried, which moves the exponent.
    split at h
    · next hcarry =>
      rw [if_pos hcarry]
      split at h
      · next hlimit => rw [if_pos hlimit]
      · cases h
    · next hcarry =>
      rw [if_neg hcarry]
      split at h
      · next hlimit => rw [if_pos hlimit]
      · cases h

namespace Value

open Failure

/-- Whether a value is an integer beyond all finite numbers. -/
def IsHuge (v : Value) : Prop := ∃ i s, v = .int i ∧ Binary64.ofInt i = .infinite s

theorem isHuge_neg {i : Int} (h : IsHuge (.int (-i))) : IsHuge (.int i) := by
  obtain ⟨_, s, hi, hs⟩ := h
  cases hi
  simp only [Binary64.ofInt, Binary64.ofScaled, Int.natAbs_neg] at hs
  exact ⟨i, _, rfl, Binary64.ofRatio_infinite hs⟩

theorem amountOfInt_failsWith (i : Int) :
    FailsWith (fun e => e = .fault .overflow ∧ IsHuge (.int i)) (amountOfInt i) := by
  unfold amountOfInt
  split
  · next s hs => simpa using ⟨i, s, rfl, hs⟩
  · simp

theorem amountOfInt_of_isHuge {i : Int} (h : IsHuge (.int i)) :
    amountOfInt i = .error (.fault .overflow) := by
  obtain ⟨_, s, hi, hs⟩ := h
  cases hi
  simp [amountOfInt, hs]

theorem not_isHuge_toInt (b : Bool) : ¬ IsHuge (.int b.toInt) := by
  rintro ⟨_, s, hi, hs⟩
  cases hi
  cases b <;> cases hs

/-- An amount fails to be a number in a fault that is reported, or because it is too great. -/
theorem amount_failsWith (v : Value) :
    FailsWith (fun e => e.IsReported ∨ e = .fault .overflow ∧ v.IsHuge) v.amount := by
  unfold amount
  split
  · simp
  · exact (amountOfInt_failsWith _).mono fun e he => absurd he.2 (not_isHuge_toInt _)
  · exact (amountOfInt_failsWith _).mono fun _ => Or.inr
  · split <;> simp
  · simp

theorem amount_of_isHuge {v : Value} (h : v.IsHuge) : v.amount = .error (.fault .overflow) := by
  obtain ⟨i, s, rfl, hs⟩ := h
  exact amountOfInt_of_isHuge ⟨i, s, rfl, hs⟩

/-- An integer is beyond all numbers on either side of zero. -/
theorem negated_of_isHuge {v : Value} (h : v.IsHuge) : ∃ w, v.negated = .ok w ∧ w.IsHuge := by
  obtain ⟨i, s, rfl, hs⟩ := h
  exact ⟨.int (-i), rfl, isHuge_neg ⟨i, s, by rw [Int.neg_neg], hs⟩⟩

theorem negated_failsWith (v : Value) : FailsWith IsReported v.negated := by
  unfold negated
  split <;> simp

theorem isHuge_of_negated {v w : Value} (h : v.negated = .ok w) (hw : w.IsHuge) : v.IsHuge := by
  unfold negated at h
  split at h
  · cases h
    obtain ⟨_, _, hi, -⟩ := hw
    cases hi
  · next b =>
    cases h
    exact absurd (isHuge_neg hw) (not_isHuge_toInt b)
  · cases h
    exact isHuge_neg hw
  · cases h

end Value

namespace Format

open Failure

theorem lift_failsWith {α : Type} (x : Except TemplateFault α) :
    FailsWith IsReported (lift x) := by
  cases x <;> simp [lift]

theorem integer_failsWith (f : Format) (kind : String) (i : Int) :
    FailsWith IsFault (f.integer kind i) := by
  unfold integer
  have hlift (x : Except TemplateFault (List Char)) : FailsWith IsFault (lift x) :=
    (lift_failsWith x).fault
  split
  · split_ifs <;> simp [hlift]
  · split_ifs
    · exact hlift _
    · exact hlift _
    · exact hlift _
    · exact hlift _
    · simp
    · simp
    · split
      · exact hlift _
      · next e he => simp [(Value.amountOfInt_failsWith i e he).1]
    · exact hlift _

theorem apply_failsWith [Platform] (format : List Char) (v : Value) :
    FailsWith IsFault (apply format v) := by
  unfold apply
  split
  · exact v.plain?_failsWith.fault.map
  · split
    · exact (lift_failsWith _).fault
    · exact (lift_failsWith _).fault.bind fun f _ => integer_failsWith f _ _
    · exact (lift_failsWith _).fault.bind fun f _ => integer_failsWith f _ _
    · exact (lift_failsWith _).fault
    all_goals first | exact failsWith_mapError_fault _ | simp

end Format

namespace Template

open Failure

variable {parts : List Value} {numbering : Numbering} {v : Value}

/-- Whether a piece of a template is a slot. -/
def isSlot : Segment → Bool
  | .text _ => false
  | .slot _ _ _ => true

/-- A template whose slots are all empty braces. -/
def IsPlain (t : Template) : Prop := ∀ name conversion format,
  .slot name conversion format ∈ t.segments → name = [] ∧ conversion = none ∧ format = []

/-- How many slots a template has. -/
def slotCount (t : Template) : Nat := t.segments.countP isSlot

/-- The part that comes next, where slots take the parts in turn. -/
def Numbering.next : Numbering → Nat
  | unset => 0
  | automatic n => n
  | manual => 0

@[simp] theorem Numbering.next_unset : unset.next = 0 := rfl

@[simp] theorem Numbering.next_automatic (n : Nat) : (automatic n).next = n := rfl

theorem part_eq_ok {n : Nat} (h : part parts n = .ok v) : v ∈ parts ∧ n < parts.length := by
  unfold part at h
  split at h
  · next w hw =>
    cases h
    exact ⟨List.mem_of_getElem? hw, (List.getElem?_eq_some_iff.mp hw).1⟩
  · cases h

theorem part_eq_error {n : Nat} {e : Failure} :
    part parts n = .error e ↔ parts.length ≤ n ∧ e = .fault .index := by
  unfold part
  split
  · next v hv =>
    have hlt := (List.getElem?_eq_some_iff.mp hv).1
    simp [Nat.not_le.mpr hlt]
  · next hnone =>
    have hle := List.getElem?_eq_none_iff.mp hnone
    simp [hle, eq_comm]

theorem number?_nil : number? [] = .ok none := by rfl

theorem choose_nil (h : numbering ≠ .manual) : choose parts numbering [] =
    (part parts numbering.next).map fun v => (v, .automatic (numbering.next + 1)) := by
  cases numbering with
  | manual => exact absurd rfl h
  | _ => simp [choose, number?_nil, Numbering.next, Except.map, bind, Except.bind, pure, Except.pure]

variable [Platform]

theorem formatted_failsWith (format : List Char) (p : Part) :
    FailsWith IsFault (formatted format p) := by
  cases p with
  | inl v => exact Format.apply_failsWith format v
  | inr o => exact failsWith_mapError_fault _

theorem fillSegments_failsWith
    {expand : Numbering → List Char → Except Failure (List Char × Numbering)}
    (hexpand : ∀ numbering s, FailsWith IsFault (expand numbering s))
    (fault : Option TemplateFault) (numbering : Numbering) (segments : List Segment) :
    FailsWith IsFault (fillSegments parts expand fault numbering segments) := by
  induction segments generalizing numbering with
  | nil =>
    unfold fillSegments
    split <;> simp
  | cons segment rest ih =>
    cases segment with
    | text s =>
      unfold fillSegments
      exact (ih numbering).bind fun _ _ => by simp
    | slot name conversion format =>
      unfold fillSegments
      refine find_failsWith.bind fun found _ => ?_
      refine (convert_failsWith _ _).bind fun p _ => ?_
      have hrest (text : List Char) (numbering : Numbering) := (ih numbering).bind
        fun filled _ => failsWith_pure (P := IsFault) (text ++ filled.1, filled.2)
      dsimp only
      split
      · exact (hexpand _ _).bind fun expanded _ =>
          (formatted_failsWith _ p).bind fun text _ => hrest text _
      · exact (formatted_failsWith _ p).bind fun text _ => hrest text _

theorem fillAt_failsWith (depth : Nat) (numbering : Numbering) (s : List Char) :
    FailsWith IsFault (fillAt parts depth numbering s) := by
  induction depth generalizing numbering s with
  | zero => simp [fillAt]
  | succ depth ih => exact fillSegments_failsWith ih _ _ _

theorem fill_failsWith (template : String) (parts : List Value) :
    FailsWith IsFault (fill template parts) :=
  (fillAt_failsWith 2 .unset template.toList).bind fun _ _ => by simp

/-- An empty slot takes the next part. -/
theorem find_nil (h : numbering ≠ .manual) : find parts numbering [] =
    (part parts numbering.next).map fun v => (.inl v, .automatic (numbering.next + 1)) := by
  have hfollow (p : Part) : follow 1 p [] = .ok p := by rfl
  cases hpart : part parts numbering.next <;>
    simp [find, choose_nil h, hfollow, hpart, Except.map, pure, Except.pure]

variable {expand : Numbering → List Char → Except Failure (List Char × Numbering)}
  {fault : Option TemplateFault} {segments : List Segment}

/-- An empty slot is filled with the plain text of the next part. -/
theorem fillSegments_slot_nil (h : numbering ≠ .manual) (rest : List Segment) :
    fillSegments parts expand fault numbering (.slot [] none [] :: rest) =
      part parts numbering.next >>= fun v => v.plain? >>= fun text =>
        (fillSegments parts expand fault (.automatic (numbering.next + 1)) rest).map fun filled =>
          (text.toList ++ filled.1, filled.2) := by
  rw [fillSegments, find_nil h]
  cases part parts numbering.next with
  | error e => rfl
  | ok v =>
    change v.plain?.map String.toList >>= _ = v.plain? >>= _
    cases v.plain? <;> rfl

/-- Empty slots take the parts in turn. Where a part is missing, no text comes of them, and if all
parts have texts, it is for that part. -/
theorem fillSegments_plain (parts : List Value)
    (expand : Numbering → List Char → Except Failure (List Char × Numbering))
    (fault : Option TemplateFault) (h : numbering ≠ .manual) (hnext : numbering.next ≤ parts.length)
    (hplain : ∀ name conversion format, .slot name conversion format ∈ segments →
      name = [] ∧ conversion = none ∧ format = []) :
    ((∀ v ∈ parts, v.hasText) → parts.length < numbering.next + segments.countP isSlot →
      fillSegments parts expand fault numbering segments = .error (.fault .index)) ∧
    FailsWith (fun e => e.IsReported ∨
        e = .fault .index ∧ parts.length < numbering.next + segments.countP isSlot)
      (fillSegments parts expand fault numbering segments) := by
  induction segments generalizing numbering with
  | nil =>
    refine ⟨fun _ hlt => ?_, ?_⟩
    · simp only [List.countP_nil] at hlt
      omega
    · unfold fillSegments
      split <;> simp
  | cons segment rest ih =>
    have hrest := fun name conversion format hmem =>
      hplain name conversion format (List.mem_cons_of_mem segment hmem)
    cases segment with
    | text s =>
      obtain ⟨hmissing, hfails⟩ := ih h hnext hrest
      rw [List.countP_cons_of_neg (by simp [isSlot]), fillSegments]
      refine ⟨fun htexts hlt => by rw [hmissing htexts hlt]; rfl, ?_⟩
      exact hfails.bind fun _ _ => by simp
    | slot name conversion format =>
      obtain ⟨rfl, rfl, rfl⟩ := hplain _ _ _ List.mem_cons_self
      rw [List.countP_cons_of_pos (by simp [isSlot]), fillSegments_slot_nil h]
      cases hpart : part parts numbering.next with
      | error e =>
        obtain ⟨hlength, rfl⟩ := part_eq_error.mp hpart
        exact ⟨fun _ _ => rfl, failsWith_error.mpr (Or.inr ⟨rfl, by omega⟩)⟩
      | ok v =>
        obtain ⟨hv, hlt⟩ := part_eq_ok hpart
        obtain ⟨hmissing, hfails⟩ :=
          ih (show Numbering.automatic (numbering.next + 1) ≠ .manual by simp) hlt hrest
        rw [Numbering.next_automatic, Nat.add_right_comm, Nat.add_assoc] at hmissing hfails
        refine ⟨fun htexts hcount => ?_, ?_⟩
        · rw [ok_bind, Value.plain?, if_pos (htexts v hv), ok_bind, hmissing htexts hcount]
          rfl
        · exact (v.plain?_failsWith.mono fun _ => Or.inl).bind fun _ _ => hfails.map

section Plain

variable {template : String} (h : (read template.toList).IsPlain)
include h

theorem fillAt_plain (parts : List Value) :
    ((∀ v ∈ parts, v.hasText) → parts.length < (read template.toList).slotCount →
      fillAt parts 2 .unset template.toList = .error (.fault .index)) ∧
    FailsWith (fun e => e.IsReported ∨
        e = .fault .index ∧ parts.length < (read template.toList).slotCount)
      (fillAt parts 2 .unset template.toList) := by
  have hsegments := fillSegments_plain parts (fillAt parts 1) (read template.toList).fault
    (show Numbering.unset ≠ .manual by simp) (Nat.zero_le _) h
  rwa [Numbering.next_unset, Nat.zero_add] at hsegments

theorem fill_plain_of_lt (htexts : ∀ v ∈ parts, v.hasText)
    (hcount : parts.length < (read template.toList).slotCount) :
    fill template parts = .error (.fault .index) := by
  rw [fill, (fillAt_plain h parts).1 htexts hcount]
  rfl

/-- A template of empty slots lets a fault pass only if there are fewer parts than slots. -/
theorem fill_plain_failsWith : FailsWith (fun e => e.IsReported ∨
    e = .fault .index ∧ parts.length < (read template.toList).slotCount) (fill template parts) :=
  (fillAt_plain h parts).2.bind fun _ _ => by simp

end Plain

end Template

namespace Color

open Failure

theorem readColor_failsWith (text : String) : FailsWith IsReported (readColor text) := by
  unfold readColor
  split <;> simp

theorem byte?_failsWith (x : Binary64) : FailsWith IsReported (byte? x) := by
  unfold byte?
  split <;> simp

theorem lightenBy_failsWith (c : Color) (delta : Binary64) :
    FailsWith IsReported (c.lightenBy delta) :=
  (byte?_failsWith _).bind fun _ _ => (byte?_failsWith _).bind fun _ _ =>
    (byte?_failsWith _).bind fun _ _ => by simp

theorem setAlpha_failsWith (text : String) (amount : Value) :
    FailsWith (fun e => e.IsReported ∨ e = .fault .overflow ∧ amount.IsHuge)
      (setAlpha text amount) :=
  ((readColor_failsWith text).mono fun _ => Or.inl).bind fun _ _ =>
    amount.amount_failsWith.bind fun _ _ => by simp

theorem moveLightness_failsWith (text : String) (delta : Value) :
    FailsWith (fun e => e.IsReported ∨ e = .fault .overflow ∧ delta.IsHuge)
      (moveLightness text delta) :=
  ((readColor_failsWith text).mono fun _ => Or.inl).bind fun c _ =>
    delta.amount_failsWith.bind fun x _ =>
      ((c.lightenBy_failsWith x).mono fun _ => Or.inl).bind fun _ _ => by simp

section Huge

variable {text : String} {c : Color} {amount : Value} (hread : readColor text = .ok c)
  (h : amount.IsHuge)
include hread h

theorem setAlpha_of_isHuge : setAlpha text amount = .error (.fault .overflow) := by
  rw [setAlpha, hread, ok_bind, Value.amount_of_isHuge h]
  rfl

theorem moveLightness_of_isHuge : moveLightness text amount = .error (.fault .overflow) := by
  rw [moveLightness, hread, ok_bind, Value.amount_of_isHuge h]
  rfl

end Huge

end Color

end DesignTokens
