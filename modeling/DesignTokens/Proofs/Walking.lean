import DesignTokens.Proofs.Outcomes
import DesignTokens.Proofs.Trimming
import DesignTokens.Theme
import Mathlib.Data.List.TakeWhile

/-! Looking up as a walk. A walk takes one step for each segment, by keys through mappings and by
places through rows. A look-up gives what the walk ends at; where the walk cannot go on it fails, and
it does so with a render error unless a segment looks like a place in a row and is none. -/
namespace DesignTokens

namespace Text

/-- The code points of white space. -/
def blankCodes : List Nat :=
  [9, 10, 11, 12, 13, 28, 29, 30, 31, 32, 0x85, 0xa0, 0x1680, 0x2000, 0x2001, 0x2002, 0x2003, 0x2004,
    0x2005, 0x2006, 0x2007, 0x2008, 0x2009, 0x200a, 0x2028, 0x2029, 0x202f, 0x205f, 0x3000]

theorem mem_blankCodes_of_isBlank {c : Char} (h : isBlank c = true) : c.toNat ∈ blankCodes := by
  simp only [isBlank, Bool.or_eq_true, Bool.and_eq_true, decide_eq_true_eq, beq_iff_eq] at h
  simp only [blankCodes, List.mem_cons, List.not_mem_nil, or_false]
  omega

/-- No digit of any kind is white space. -/
theorem isBlank_of_isDigitLike {c : Char} (h : isDigitLike c = true) : isBlank c = false := by
  have hnone : blankCodes.all (fun n => !isDigitLike (Char.ofNat n)) = true := by decide +kernel
  by_contra hblank
  have hcode : c.toNat ∈ blankCodes := mem_blankCodes_of_isBlank (by simpa using hblank)
  simpa [h] using List.all_eq_true.mp hnone c.toNat hcode

end Text

namespace Number

theorem withoutUnderscores?_of_forall {cs : List Char} (h : '_' ∉ cs) (afterDigit : Bool) :
    withoutUnderscores? afterDigit cs = some cs := by
  induction cs generalizing afterDigit with
  | nil => rfl
  | cons c rest ih =>
    obtain ⟨hc, hrest⟩ := not_or.mp (List.mem_cons.not.mp h)
    rw [withoutUnderscores?]
    · rw [ih hrest]
      rfl
    · rintro d tail rfl
      exact absurd rfl hc
    · rintro rfl
      exact absurd rfl hc

/-- A text that leaves nothing behind its leading digits holds digits only. -/
theorem digits_of_leadingDigits {cs : List Char} {ds : List Nat}
    (h : leadingDigits cs = (ds, [])) :
    ds.length = cs.length ∧ ∀ c ∈ cs, (Text.digitValue? c).isSome = true := by
  induction cs generalizing ds with
  | nil =>
    obtain rfl : [] = ds := by simpa [leadingDigits] using h
    simp
  | cons c rest ih =>
    rw [leadingDigits] at h
    split at h
    · next d hd =>
      obtain ⟨rfl, hafter⟩ := Prod.mk.inj h
      obtain ⟨hlength, hdigits⟩ := ih (Prod.ext rfl hafter)
      exact ⟨by simp [hlength], List.forall_mem_cons.mpr ⟨by simp [hd], hdigits⟩⟩
    · cases h

theorem leadingDigits_eq_iff {cs : List Char} {ds : List Nat} :
    leadingDigits cs = (ds, []) ↔ cs.mapM Text.digitValue? = some ds := by
  induction cs generalizing ds with
  | nil => simp [leadingDigits]
  | cons c rest ih =>
    rw [leadingDigits, List.mapM_cons]
    cases hc : Text.digitValue? c with
    | none => simp
    | some d =>
      constructor
      · intro h
        obtain ⟨rfl, hafter⟩ := Prod.mk.inj h
        simp [ih.mp (Prod.ext rfl hafter)]
      · intro h
        obtain ⟨_, hd, h⟩ := Option.bind_eq_some_iff.mp h
        obtain ⟨tail, htail, h⟩ := Option.bind_eq_some_iff.mp h
        cases hd
        cases h
        simp [ih.mpr htail]

theorem exists_mapM_digitValue? {cs : List Char}
    (h : ∀ c ∈ cs, Text.digitValue? c ≠ none) : ∃ ds, cs.mapM Text.digitValue? = some ds := by
  induction cs with
  | nil => exact ⟨[], rfl⟩
  | cons c rest ih =>
    obtain ⟨d, hd⟩ := Option.ne_none_iff_exists'.mp (h c List.mem_cons_self)
    obtain ⟨ds, hds⟩ := ih fun c hc => h c (List.mem_cons_of_mem _ hc)
    exact ⟨d :: ds, by simp [List.mapM_cons, hd, hds]⟩

/-- A text without white space and underscores spells an integer if its sign, or none, stands before
decimal digits. -/
theorem readInt?_eq_some_of_clean {s : String} {i : Int}
    (hblank : ∀ c ∈ s.toList, Text.isBlank c = false) (hline : '_' ∉ s.toList) :
    readInt? s = some i ↔ ∃ negative cs ds, leadingSign s.toList = (negative, cs) ∧ cs ≠ [] ∧
      cs.mapM Text.digitValue? = some ds ∧ cs.length ≤ maxDigits ∧
      i = if negative then -(ofDigits ds : Int) else ofDigits ds := by
  rw [readInt?, Text.strip_of_forall hblank, withoutUnderscores?_of_forall hline]
  simp only [Option.bind_eq_bind, Option.bind_some]
  obtain ⟨negative, cs⟩ := leadingSign s.toList
  constructor
  · intro h
    dsimp only at h
    split at h
    · cases h
    · next ds hnone hds =>
      have hlength := (digits_of_leadingDigits hds).1
      split at h
      · cases h
      · next hlimit =>
        refine ⟨negative, cs, ds, rfl, ?_, leadingDigits_eq_iff.mp hds, by omega, ?_⟩
        · rintro rfl
          exact hnone (List.length_eq_zero_iff.mp hlength)
        · split at h <;> simp_all
    · cases h
  · rintro ⟨_, _, ds, hsign, hne, hdigits, hlimit, rfl⟩
    cases hsign
    have hds := leadingDigits_eq_iff.mpr hdigits
    have hlength := (digits_of_leadingDigits hds).1
    have hds' : ds ≠ [] := by
      rintro rfl
      exact hne (List.length_eq_zero_iff.mp hlength.symm)
    obtain ⟨d, rest, rfl⟩ := List.exists_cons_of_ne_nil hds'
    rw [hds]
    dsimp only
    rw [if_neg (by omega)]
    cases negative <;> rfl

end Number

/-- A segment of minus signs with digits of any kind behind them. -/
structure Signed (segment : String) (signs : Nat) (digits : List Char) : Prop where
  text : segment.toList = List.replicate signs '-' ++ digits
  ne_nil : digits ≠ []
  digitLike : ∀ c ∈ digits, Text.isDigitLike c = true

/-- A segment that spells an integer: decimal digits, not too many, behind at most one minus. -/
def Spells (segment : String) (i : Int) : Prop :=
  ∃ signs digits ds, Signed segment signs digits ∧ signs ≤ 1 ∧
    digits.mapM Text.digitValue? = some ds ∧ digits.length ≤ Number.maxDigits ∧
    i = if signs = 1 then -(Number.ofDigits ds : Int) else Number.ofDigits ds

/-- A segment that looks like a place in a row and spells no integer: it has several signs, or
digits outside decimal notation, or too many digits. -/
def Misleads (segment : String) : Prop :=
  ∃ signs digits, Signed segment signs digits ∧
    (2 ≤ signs ∨ (∃ c ∈ digits, Text.digitValue? c = none) ∨ Number.maxDigits < digits.length)

section Segments

variable {segment : String} {signs : Nat} {digits : List Char} {i : Int}

theorem looksLikePlace_iff :
    looksLikePlace segment = true ↔ ∃ signs digits, Signed segment signs digits := by
  constructor
  · intro h
    simp only [looksLikePlace, Bool.and_eq_true, Bool.not_eq_true', List.isEmpty_eq_false_iff,
      List.all_eq_true] at h
    have hsigns : segment.toList.takeWhile (· == '-') =
        List.replicate (segment.toList.takeWhile (· == '-')).length '-' :=
      List.eq_replicate_of_mem fun c hc => by simpa using List.mem_takeWhile_imp hc
    refine ⟨(segment.toList.takeWhile (· == '-')).length, segment.toList.dropWhile (· == '-'), ?_,
      h.1, h.2⟩
    rw [← hsigns, List.takeWhile_append_dropWhile]
  · rintro ⟨signs, digits, h⟩
    have hdrop : segment.toList.dropWhile (· == '-') = digits := by
      obtain ⟨c, rest, rfl⟩ := List.exists_cons_of_ne_nil h.ne_nil
      have hc : c ≠ '-' := by
        rintro rfl
        exact absurd (h.digitLike _ List.mem_cons_self) (by decide)
      rw [h.text, List.dropWhile_append_of_pos (by simp), List.dropWhile_cons_of_neg (by simpa)]
    simp only [looksLikePlace, hdrop, Bool.and_eq_true, Bool.not_eq_true',
      List.isEmpty_eq_false_iff, List.all_eq_true]
    exact ⟨h.ne_nil, h.digitLike⟩

/-- No character of such a segment is a plus, an underscore or white space. -/
theorem Signed.clean (h : Signed segment signs digits) :
    ∀ c ∈ segment.toList, c ≠ '+' ∧ c ≠ '_' ∧ Text.isBlank c = false := by
  rw [h.text]
  intro c hc
  rcases List.mem_append.mp hc with hc | hc
  · obtain rfl := List.eq_of_mem_replicate hc
    decide
  · have hdigit := h.digitLike c hc
    refine ⟨?_, ?_, Text.isBlank_of_isDigitLike hdigit⟩ <;> rintro rfl
    all_goals exact absurd hdigit (by decide)

theorem Signed.leadingSign_digits (h : Signed segment signs digits) :
    Number.leadingSign digits = (false, digits) := by
  obtain ⟨c, rest, rfl⟩ := List.exists_cons_of_ne_nil h.ne_nil
  have hdigit := h.digitLike c List.mem_cons_self
  unfold Number.leadingSign
  split
  · next he =>
    obtain rfl := (List.cons.inj he).1
    exact absurd hdigit (by decide)
  · next he =>
    obtain rfl := (List.cons.inj he).1
    exact absurd hdigit (by decide)
  · rfl

/-- Of such segments those that spell integers are read as them, and the others as none. -/
theorem Signed.readInt?_eq_some (h : Signed segment signs digits) :
    Number.readInt? segment = some i ↔ ∃ ds, signs ≤ 1 ∧ digits.mapM Text.digitValue? = some ds ∧
      digits.length ≤ Number.maxDigits ∧
      i = if signs = 1 then -(Number.ofDigits ds : Int) else Number.ofDigits ds := by
  rw [Number.readInt?_eq_some_of_clean (fun c hc => (h.clean c hc).2.2)
    fun hc => (h.clean _ hc).2.1 rfl, h.text]
  match signs with
  | 0 => simp [h.leadingSign_digits, h.ne_nil]
  | 1 => simp [Number.leadingSign, h.ne_nil]
  | n + 2 =>
    -- The second sign is no digit.
    have hminus : Text.digitValue? '-' = none := by decide
    simp [Number.leadingSign, List.replicate_succ, hminus]

theorem spells_iff :
    Spells segment i ↔ looksLikePlace segment = true ∧ Number.readInt? segment = some i := by
  rw [looksLikePlace_iff]
  constructor
  · rintro ⟨signs, digits, ds, h, hvalue⟩
    exact ⟨⟨signs, digits, h⟩, h.readInt?_eq_some.mpr ⟨ds, hvalue⟩⟩
  · rintro ⟨⟨signs, digits, h⟩, hread⟩
    obtain ⟨ds, hvalue⟩ := h.readInt?_eq_some.mp hread
    exact ⟨signs, digits, ds, h, hvalue⟩

theorem misleads_iff :
    Misleads segment ↔ looksLikePlace segment = true ∧ Number.readInt? segment = none := by
  rw [looksLikePlace_iff]
  constructor
  · rintro ⟨signs, digits, h, hwhy⟩
    refine ⟨⟨signs, digits, h⟩, Option.eq_none_iff_forall_ne_some.mpr fun i hread => ?_⟩
    obtain ⟨ds, hsigns, hdigits, hlimit, -⟩ := h.readInt?_eq_some.mp hread
    rcases hwhy with hmany | ⟨c, hc, hnone⟩ | hlong
    · omega
    · have hsome := (Number.digits_of_leadingDigits (Number.leadingDigits_eq_iff.mpr hdigits)).2 c hc
      simp [hnone] at hsome
    · omega
  · rintro ⟨⟨signs, digits, h⟩, hread⟩
    refine ⟨signs, digits, h, ?_⟩
    by_contra hnot
    simp only [not_or, not_exists, not_and, not_le, not_lt] at hnot
    obtain ⟨hsigns, hdecimal, hlimit⟩ := hnot
    obtain ⟨ds, hds⟩ := Number.exists_mapM_digitValue? hdecimal
    have hsome := h.readInt?_eq_some.mpr ⟨ds, by omega, hds, hlimit, rfl⟩
    simp [hread] at hsome

/-- At a row a segment spells a place, or misleads, or is taken for none. -/
theorem spells_or_misleads (segment : String) :
    (∃ i, Spells segment i) ∨ Misleads segment ∨ looksLikePlace segment = false := by
  cases hplace : looksLikePlace segment with
  | false => exact Or.inr (Or.inr rfl)
  | true =>
    cases hread : Number.readInt? segment with
    | none => exact Or.inr (Or.inl (misleads_iff.mpr ⟨hplace, hread⟩))
    | some i => exact Or.inl ⟨i, spells_iff.mpr ⟨hplace, hread⟩⟩

end Segments

/-- A value is the item of a row at a place: the places count from the start on, and below zero from
the end. -/
def ItemAt (items : List Value) (i : Int) (v : Value) : Prop :=
  ∃ n : Nat, items[n]? = some v ∧ (i = n ∨ i = n - items.length)

theorem itemAt?_eq_some {items : List Value} {i : Int} {v : Value} :
    itemAt? items i = some v ↔ ItemAt items i v := by
  unfold itemAt? ItemAt
  constructor
  · intro h
    split at h
    · exact ⟨i.toNat, h, by omega⟩
    · split at h
      · exact ⟨_, h, by omega⟩
      · cases h
  · rintro ⟨n, hn, hi⟩
    have hlt : n < items.length := (List.getElem?_eq_some_iff.mp hn).1
    rcases hi with rfl | rfl
    · simpa using hn
    · have hplace : ((items.length : Int) + (n - items.length)).toNat = n := by omega
      rw [if_neg (by omega), if_pos (by omega), hplace, hn]

/-- A step of a walk: from a mapping to the entry of the key, from a row to the item at the place
that the segment spells. -/
inductive Takes : Value → String → Value → Prop where
  | entry {es : List (Value × Value)} {segment : String} {v : Value}
      (h : Value.entry? segment es = some v) : Takes (.map es) segment v
  | item {node v : Value} {xs : List Value} {segment : String} {i : Int}
      (hrow : node = .list xs ∨ node = .tuple xs) (hspells : Spells segment i)
      (hitem : ItemAt xs i v) : Takes node segment v

/-- A walk from one value to another by steps for all segments. -/
inductive Walk : Value → List String → Value → Prop where
  | done (v : Value) : Walk v [] v
  | step {v x y : Value} {segment : String} {rest : List String} (hstep : Takes v segment x)
      (hrest : Walk x rest y) : Walk v (segment :: rest) y

/-- A segment that leads no further, and the failure of a walk along `path` that meets it. -/
inductive Stuck (path : String) : Value → String → Failure → Prop where
  | missing {es : List (Value × Value)} {segment : String} (h : Value.entry? segment es = none) :
      Stuck path (.map es) segment (.render (.noValue path))
  | outside {node : Value} {xs : List Value} {segment : String} {i : Int}
      (hrow : node = .list xs ∨ node = .tuple xs) (hspells : Spells segment i)
      (hitem : ∀ v, ¬ ItemAt xs i v) : Stuck path node segment (.render (.outOfRange segment path))
  | noPlace {node : Value} {xs : List Value} {segment : String}
      (hrow : node = .list xs ∨ node = .tuple xs) (hspells : ∀ i, ¬ Spells segment i)
      (hmisleads : ¬ Misleads segment) : Stuck path node segment (.render (.noValue path))
  | misled {node : Value} {xs : List Value} {segment : String}
      (hrow : node = .list xs ∨ node = .tuple xs) (hmisleads : Misleads segment) :
      Stuck path node segment (.value (.notAnInteger 10 segment))
  | bottom {node : Value} {segment : String}
      (hmap : ∀ es, node ≠ .map es) (hrow : ∀ xs, ¬ (node = .list xs ∨ node = .tuple xs)) :
      Stuck path node segment (.render (.noValue path))

section Steps

variable {path segment : String} {node v theme : Value} {xs : List Value} {failure : Failure}

theorem step_row (hrow : node = .list xs ∨ node = .tuple xs) :
    step path node segment =
      if looksLikePlace segment then
        match Number.readInt? segment with
        | none => .error (.value (.notAnInteger 10 segment))
        | some i =>
          match itemAt? xs i with
          | some v => .ok v
          | none => .error (.render (.outOfRange segment path))
      else .error (.render (.noValue path)) := by
  rcases hrow with rfl | rfl <;> rfl

theorem Takes.step_eq (h : Takes node segment v) : step path node segment = .ok v := by
  cases h with
  | entry h => simp [step, h]
  | item hrow hspells hitem =>
    obtain ⟨hplace, hread⟩ := spells_iff.mp hspells
    simp [step_row hrow, hplace, hread, itemAt?_eq_some.mpr hitem]

theorem Stuck.step_eq (h : Stuck path node segment failure) :
    step path node segment = .error failure := by
  cases h with
  | missing h => simp [step, h]
  | outside hrow hspells hitem =>
    obtain ⟨hplace, hread⟩ := spells_iff.mp hspells
    have hnone := Option.eq_none_iff_forall_ne_some.mpr fun v => mt itemAt?_eq_some.mp (hitem v)
    simp [step_row hrow, hplace, hread, hnone]
  | noPlace hrow hspells hmisleads =>
    have hplace : looksLikePlace segment = false := by
      rcases spells_or_misleads segment with ⟨i, hi⟩ | h | h
      · exact absurd hi (hspells i)
      · exact absurd h hmisleads
      · exact h
    simp [step_row hrow, hplace]
  | misled hrow hmisleads =>
    obtain ⟨hplace, hread⟩ := misleads_iff.mp hmisleads
    simp [step_row hrow, hplace, hread]
  | bottom hmap hrow =>
    cases node with
    | map es => exact absurd rfl (hmap es)
    | list xs => exact absurd (Or.inl rfl) (hrow xs)
    | tuple xs => exact absurd (Or.inr rfl) (hrow xs)
    | _ => rfl

/-- A walk can always go on or is stuck. -/
theorem takes_or_stuck (path : String) (node : Value) (segment : String) :
    (∃ v, Takes node segment v) ∨ ∃ failure, Stuck path node segment failure := by
  have hrows : ∀ xs, node = .list xs ∨ node = .tuple xs →
      (∃ v, Takes node segment v) ∨ ∃ failure, Stuck path node segment failure := by
    intro xs hrow
    rcases spells_or_misleads segment with ⟨i, hspells⟩ | hmisleads | hplace
    · by_cases hitem : ∃ v, ItemAt xs i v
      · exact Or.inl (hitem.imp fun v => .item hrow hspells)
      · exact Or.inr ⟨_, .outside hrow hspells (not_exists.mp hitem)⟩
    · exact Or.inr ⟨_, .misled hrow hmisleads⟩
    · refine Or.inr ⟨_, .noPlace hrow (fun i hspells => ?_) fun hmisleads => ?_⟩
      · simp [(spells_iff.mp hspells).1] at hplace
      · simp [(misleads_iff.mp hmisleads).1] at hplace
  cases node with
  | map es =>
    cases hentry : Value.entry? segment es with
    | none => exact Or.inr ⟨_, .missing hentry⟩
    | some v => exact Or.inl ⟨v, .entry hentry⟩
  | list xs => exact hrows xs (Or.inl rfl)
  | tuple xs => exact hrows xs (Or.inr rfl)
  | _ => exact Or.inr ⟨_, .bottom (by simp) (by simp)⟩

theorem step_eq_ok_iff : step path node segment = .ok v ↔ Takes node segment v := by
  refine ⟨fun h => ?_, Takes.step_eq⟩
  rcases takes_or_stuck path node segment with ⟨x, hx⟩ | ⟨failure, hstuck⟩
  · cases hx.step_eq.symm.trans h
    exact hx
  · cases hstuck.step_eq.symm.trans h

theorem step_eq_error_iff :
    step path node segment = .error failure ↔ Stuck path node segment failure := by
  refine ⟨fun h => ?_, Stuck.step_eq⟩
  rcases takes_or_stuck path node segment with ⟨x, hx⟩ | ⟨failure', hstuck⟩
  · cases hx.step_eq.symm.trans h
  · cases hstuck.step_eq.symm.trans h
    exact hstuck

theorem foldlM_step_eq_ok {segments : List String} :
    segments.foldlM (step path) node = .ok v ↔ Walk node segments v := by
  induction segments generalizing node with
  | nil =>
    constructor
    · intro h
      cases h
      exact .done _
    · rintro (_ | _)
      rfl
  | cons segment rest ih =>
    rw [List.foldlM_cons, bind_eq_ok]
    constructor
    · rintro ⟨x, hx, hrest⟩
      exact .step (step_eq_ok_iff.mp hx) (ih.mp hrest)
    · rintro (_ | ⟨hstep, hrest⟩)
      exact ⟨_, step_eq_ok_iff.mpr hstep, ih.mpr hrest⟩

theorem lookup_eq_ok : lookup theme path = .ok v ↔ Walk theme (splitPath path) v :=
  foldlM_step_eq_ok

theorem lookup_eq_error : lookup theme path = .error failure ↔
    ∃ before segment after node, splitPath path = before ++ segment :: after ∧
      Walk theme before node ∧ Stuck path node segment failure := by
  simp only [lookup, foldlM_eq_error, foldlM_step_eq_ok, step_eq_error_iff]

end Steps

/-- Whether a failure is a render error. -/
def Failure.IsRender (failure : Failure) : Prop := ∃ fault, failure = .render fault

/-- Looking up a path gives a value exactly if a walk along its segments ends at that value, and
fails exactly where a walk is stuck, as it is stuck there. All failures are render errors exactly if
the walk meets no segment at a row that looks like a place and spells no integer. -/
theorem lookup_walks (theme : Value) (path : String) :
    (∀ v, lookup theme path = .ok v ↔ Walk theme (splitPath path) v) ∧
    (∀ failure, lookup theme path = .error failure ↔
      ∃ before segment after node, splitPath path = before ++ segment :: after ∧
        Walk theme before node ∧ Stuck path node segment failure) ∧
    ((∀ failure, lookup theme path = .error failure → failure.IsRender) ↔
      ∀ before segment after node xs, splitPath path = before ++ segment :: after →
        Walk theme before node → node = .list xs ∨ node = .tuple xs → ¬ Misleads segment) := by
  refine ⟨fun v => lookup_eq_ok, fun failure => lookup_eq_error, fun hrender => ?_, fun hnone => ?_⟩
  · intro before segment after node xs hpath hwalk hrow hmisleads
    have hfails := lookup_eq_error.mpr
      ⟨before, segment, after, node, hpath, hwalk, .misled hrow hmisleads⟩
    obtain ⟨fault, hfault⟩ := hrender _ hfails
    cases hfault
  · intro failure hfails
    obtain ⟨before, segment, after, node, hpath, hwalk, hstuck⟩ := lookup_eq_error.mp hfails
    cases hstuck with
    | misled hrow hmisleads => exact absurd hmisleads (hnone _ _ _ _ _ hpath hwalk hrow)
    | _ => exact ⟨_, rfl⟩

/-- A row of three steps. -/
def threeSteps : Value := .map [(.text "a", .list [.int 1, .int 2, .int 3])]

/-- A segment with two signs leads nowhere, and reading it as an integer fails with a fault that is
no render error. -/
theorem lookup_misled :
    let failure := Failure.value (.notAnInteger 10 "--1")
    (∀ v, ¬ Walk threeSteps (splitPath "a.--1") v) ∧ lookup threeSteps "a.--1" = .error failure ∧
      ¬ failure.IsRender ∧ failure.message = "invalid literal for int() with base 10: '--1'" := by
  have hfails : lookup threeSteps "a.--1" = .error (.value (.notAnInteger 10 "--1")) := by rfl
  refine ⟨fun v hwalk => ?_, hfails, ?_, by decide +kernel⟩
  · rw [lookup_eq_ok.mpr hwalk] at hfails
    cases hfails
  · rintro ⟨fault, hfault⟩
    cases hfault

end DesignTokens
