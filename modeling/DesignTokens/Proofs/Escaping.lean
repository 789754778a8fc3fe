import DesignTokens.Proofs.Filling
import DesignTokens.Proofs.Loading
import DesignTokens.Yaml.Reader

/-! What loading an overlay can come to, whatever library reads its text. It gives a mapping or blames
the file, unless a fault escapes: bytes that are no text, a fault of the library's own, or one of a
tag that the library calls. A tag is at fault if it refers to nothing, has an amount that is no
number, or has parts that it cannot describe. -/
namespace DesignTokens

namespace Value

/-- The fault of a value that is no amount: a text that spells no number, an integer beyond all
finite numbers, or a value of another kind. -/
inductive AmountFault : Value → Fault → Prop where
  | text {s : String} (h : Number.readFloat? s = none) :
      AmountFault (.text s) (.value (.notANumber s))
  | huge {v : Value} (h : v.IsHuge) : AmountFault v .overflow
  | kind {v : Value} (hfloat : ∀ x, v ≠ .float x) (hbool : ∀ b, v ≠ .bool b)
      (hint : ∀ i, v ≠ .int i) (htext : ∀ s, v ≠ .text s) :
      AmountFault v (.kind (.notANumber v.kind))

theorem amountOfInt_eq_error {i : Int} {failure : Failure} :
    amountOfInt i = .error failure ↔ IsHuge (.int i) ∧ failure = .fault .overflow := by
  have hhuge : IsHuge (.int i) ↔ ∃ s, Binary64.ofInt i = .infinite s := by simp [IsHuge]
  rw [hhuge, amountOfInt]
  cases Binary64.ofInt i <;> simp [eq_comm]

theorem amount_eq_error {v : Value} {failure : Failure} :
    v.amount = .error failure ↔ ∃ f, v.AmountFault f ∧ failure = .fault f := by
  constructor
  · intro h
    cases v with
    | float x => cases h
    | bool b => exact absurd (amountOfInt_eq_error.mp h).1 (not_isHuge_toInt b)
    | int i =>
      obtain ⟨hhuge, rfl⟩ := amountOfInt_eq_error.mp h
      exact ⟨_, .huge hhuge, rfl⟩
    | text s =>
      rw [amount] at h
      split at h
      · cases h
      · next hread =>
        cases h
        exact ⟨_, .text hread, rfl⟩
    | _ =>
      cases h
      exact ⟨_, .kind (by simp) (by simp) (by simp) (by simp), rfl⟩
  · rintro ⟨f, hf, rfl⟩
    cases hf with
    | text h => simp [amount, h, Failure.value]
    | huge h => exact amount_of_isHuge h
    | kind hfloat hbool hint htext => cases v <;> first | rfl | simp_all

end Value

namespace Yaml

namespace Call

/-- The faults of tags: a reference to nothing, or by what is no text, an amount that is no number,
and parts that cannot be described. -/
inductive Breaks : Call → Fault → Prop where
  | textless : Breaks (.reference none) .emptyReference
  | nowhere : Breaks (.reference (some "")) .emptyReference
  | amount {tag : ColorTag} {base amount : Value} {f : Fault} (h : amount.AmountFault f) :
      Breaks (.color tag [base, amount]) f
  | base {tag : ColorTag} {base amount : Value} {x : Binary64} (hamount : amount.amount = .ok x)
      (hbase : base.hasText = false) :
      Breaks (.color tag [base, amount]) (.value .unwritableInteger)
  | parts {template : String} {rest : List Value} (h : Value.haveText rest = false) :
      Breaks (.format (.text template :: rest)) (.value .unwritableInteger)

theorem described_eq_fault {parts : List Value} {d : Deferred} {f : Fault} :
    described parts d = .error (.fault f) ↔
      Value.haveText parts = false ∧ f = .value .unwritableInteger := by
  unfold described
  cases Value.haveText parts <;> simp [eq_comm]

theorem answer_color_eq_fault {tag : ColorTag} {base amount : Value} {f : Fault} :
    (color tag [base, amount]).answer = .error (.fault f) ↔ amount.AmountFault f ∨
      (∃ x, amount.amount = .ok x) ∧ base.hasText = false ∧ f = .value .unwritableInteger := by
  rw [answer]
  cases hamount : amount.amount with
  | ok x =>
    have hnone : ¬ amount.AmountFault f := fun h => by
      simpa [hamount] using Value.amount_eq_error.mpr ⟨f, h, rfl⟩
    simp [described_eq_fault, Value.haveText, hnone]
  | error failure =>
    obtain ⟨g, hg, rfl⟩ := Value.amount_eq_error.mp hamount
    have hsame : amount.AmountFault f ↔ g = f := by
      constructor
      · intro h
        simpa [hamount] using Value.amount_eq_error.mpr ⟨f, h, rfl⟩
      · rintro rfl
        exact hg
    simp [stopOf, hsame]

theorem answer_eq_fault {c : Call} {f : Fault} : c.answer = .error (.fault f) ↔ c.Breaks f := by
  constructor
  · intro h
    unfold answer at h
    split at h
    · cases h
      exact .textless
    · split at h
      · next path hempty =>
        cases h
        exact hempty ▸ .nowhere
      · cases h
    · next tag base amount =>
      obtain hamount | ⟨⟨x, hamount⟩, hbase, rfl⟩ := answer_color_eq_fault.mp h
      · exact .amount hamount
      · exact .base hamount hbase
    · cases h
    · obtain ⟨hrest, rfl⟩ := described_eq_fault.mp h
      exact .parts hrest
    · cases h
  · intro h
    cases h with
    | textless => rfl
    | nowhere => rfl
    | amount h => exact answer_color_eq_fault.mpr (Or.inl h)
    | base hamount hbase => exact answer_color_eq_fault.mpr (Or.inr ⟨⟨_, hamount⟩, hbase, rfl⟩)
    | parts h => exact described_eq_fault.mpr ⟨h, rfl⟩

end Call

namespace Reading

variable {α : Type} {r r' : Reading α} {a : α} {f : Fault}

/-- A reading gets as far as another: the calls up to there are answered. -/
inductive Reaches : Reading α → Reading α → Prop where
  | refl (r : Reading α) : Reaches r r
  | answered {c : Call} {resume : Value → Reading α} {v : Value} {r : Reading α}
      (h : c.answer = .ok v) (hrest : Reaches (resume v) r) : Reaches (.call c resume) r

/-- A reading gets as far as a call. -/
def Meets (r : Reading α) (c : Call) : Prop := ∃ resume, r.Reaches (.call c resume)

theorem Reaches.run_eq (h : r.Reaches r') : r.run = r'.run := by
  induction h with
  | refl => rfl
  | answered h _ ih => rw [run, h, ← ih]

/-- A reading gets to its value, to an end of the library's own, or to a call that ends it. -/
theorem exists_reaches (r : Reading α) : (∃ a, r.Reaches (.done a)) ∨
    (∃ stop, r.Reaches (.stopped stop)) ∨ ∃ c stop, r.Meets c ∧ c.answer = .error stop := by
  induction r with
  | done a => exact Or.inl ⟨a, .refl _⟩
  | stopped stop => exact Or.inr (Or.inl ⟨stop, .refl _⟩)
  | call c resume ih =>
    cases hanswer : c.answer with
    | error stop => exact Or.inr (Or.inr ⟨c, stop, ⟨resume, .refl _⟩, hanswer⟩)
    | ok v =>
      rcases ih v with ⟨a, h⟩ | ⟨stop, h⟩ | ⟨c', stop, ⟨resume', h⟩, hstop⟩
      · exact Or.inl ⟨a, .answered hanswer h⟩
      · exact Or.inr (Or.inl ⟨stop, .answered hanswer h⟩)
      · exact Or.inr (Or.inr ⟨c', stop, ⟨resume', .answered hanswer h⟩, hstop⟩)

theorem Meets.run_eq {c : Call} {stop : Stop} (h : r.Meets c) (hanswer : c.answer = .error stop) :
    r.run = .error stop := by
  obtain ⟨resume, h⟩ := h
  rw [h.run_eq, run, hanswer]

theorem run_eq_ok : r.run = .ok a ↔ r.Reaches (.done a) := by
  refine ⟨fun hrun => ?_, fun h => h.run_eq⟩
  rcases r.exists_reaches with ⟨a', h⟩ | ⟨stop, h⟩ | ⟨c, stop, h, hanswer⟩
  · cases h.run_eq.symm.trans hrun
    exact h
  · cases h.run_eq.symm.trans hrun
  · cases (h.run_eq hanswer).symm.trans hrun

/-- A reading ends in a fault of the library's own, or in one of a tag. -/
theorem run_eq_fault : r.run = .error (.fault f) ↔
    r.Reaches (.stopped (.fault f)) ∨ ∃ c, r.Meets c ∧ c.Breaks f := by
  constructor
  · intro hrun
    rcases r.exists_reaches with ⟨a, h⟩ | ⟨stop, h⟩ | ⟨c, stop, h, hanswer⟩
    · cases h.run_eq.symm.trans hrun
    · cases h.run_eq.symm.trans hrun
      exact Or.inl h
    · cases (h.run_eq hanswer).symm.trans hrun
      exact Or.inr ⟨c, h, Call.answer_eq_fault.mp hanswer⟩
  · rintro (h | ⟨c, h, hbreaks⟩)
    · exact h.run_eq
    · exact h.run_eq (Call.answer_eq_fault.mpr hbreaks)

end Reading

end Yaml

theorem readText_of_decode {t : FileTree} {path : Path} {bytes : ByteArray}
    (hbytes : t.read path = .ok bytes) : t.readText path =
      match Text.decode? bytes with
      | some text => .ok text
      | none => .error .undecodable := by
  rw [FileTree.readText, hbytes, ok_bind]
  rfl

section Overlays

variable [Yaml.Library] {t : FileTree} {path : Path} {text : String}

theorem loadOverlay_eq_map (htext : t.readText path = .ok text) {es : List (Value × Value)} :
    (loadOverlay t path).outcome = .ok (.map es) ↔
      (Yaml.Library.tagged text).Reaches (.done (.map es)) ∨
        es = [] ∧ (Yaml.Library.tagged text).Reaches (.done .null) := by
  rw [← Yaml.Reading.run_eq_ok, ← Yaml.Reading.run_eq_ok]
  change _ ↔ Yaml.read true text = _ ∨ _ ∧ Yaml.read true text = _
  unfold loadOverlay
  rw [htext]
  simp only [Noted.outcome_bind, Noted.outcome_pure, Noted.outcome_ofExcept, ok_bind, readYaml]
  cases Yaml.read true text with
  | error stop => cases stop <;> simp
  | ok v => cases v <;> simp [Noted.warn, eq_comm]

/-- What loading an overlay comes to, whatever library reads it and whatever the bytes of its file
are: a mapping, or an error of the library about the file, unless a fault escapes. Bytes that are no
text escape. From a text a fault escapes exactly if the reading gets to a fault of the library's own,
or to a tag that breaks with it. So where the library has no faults of its own and no tag breaks, a
mapping is given or the file is blamed. -/
theorem loadOverlay_escapes (t : FileTree) (path : Path) :
    (∀ v, (loadOverlay t path).outcome = .ok v → ∃ es, v = .map es) ∧
    (∀ e, (loadOverlay t path).outcome = .error (.token e) →
      ∃ fault, e = ⟨.load fault, some ⟨none, none, some path⟩⟩) ∧
    ∀ bytes, t.read path = .ok bytes →
      (Text.decode? bytes = none → (loadOverlay t path).outcome = .error (.fault .undecodable)) ∧
      ∀ text, Text.decode? bytes = some text →
        (∀ es, (loadOverlay t path).outcome = .ok (.map es) ↔
          (Yaml.Library.tagged text).Reaches (.done (.map es)) ∨
            es = [] ∧ (Yaml.Library.tagged text).Reaches (.done .null)) ∧
        (∀ f, (loadOverlay t path).outcome = .error (.fault f) ↔
          (Yaml.Library.tagged text).Reaches (.stopped (.fault f)) ∨
            ∃ c, (Yaml.Library.tagged text).Meets c ∧ c.Breaks f) ∧
        ((∀ f, ¬ (Yaml.Library.tagged text).Reaches (.stopped (.fault f))) →
          (∀ c f, (Yaml.Library.tagged text).Meets c → ¬ c.Breaks f) →
            (∃ es, (loadOverlay t path).outcome = .ok (.map es)) ∨
              ∃ fault, (loadOverlay t path).outcome =
                .error (.token ⟨.load fault, some ⟨none, none, some path⟩⟩)) := by
  refine ⟨fun v => loadOverlay_map, fun e => loadOverlay_token, fun bytes hbytes => ?_⟩
  have hreadText := readText_of_decode hbytes
  refine ⟨fun hdecode => ?_, fun text hdecode => ?_⟩
  · rw [hdecode] at hreadText
    exact loadOverlay_eq_fault.mpr (Or.inl ⟨hreadText, by simp⟩)
  rw [hdecode] at hreadText
  have hfault (f : Fault) : (loadOverlay t path).outcome = .error (.fault f) ↔
      (Yaml.Library.tagged text).Reaches (.stopped (.fault f)) ∨
        ∃ c, (Yaml.Library.tagged text).Meets c ∧ c.Breaks f := by
    rw [← Yaml.Reading.run_eq_fault, loadOverlay_eq_fault, OverlayFault, hreadText]
    simp [Yaml.read]
  refine ⟨fun es => loadOverlay_eq_map hreadText, hfault, fun hown htags => ?_⟩
  rcases loadOverlay_cases t path with ⟨f, -, h⟩ | ⟨-, ⟨fault, h⟩ | ⟨es, h⟩⟩
  · rcases (hfault f).mp h with hstop | ⟨c, hmeets, hbreaks⟩
    · exact absurd hstop (hown f)
    · exact absurd hbreaks (htags c f hmeets)
  · exact Or.inr ⟨fault, h⟩
  · exact Or.inl ⟨es, h⟩

end Overlays

/-- A tree with a single overlay. -/
def overlayAlone (bytes : ByteArray) : FileTree := ⟨[(["a.yaml"], .file bytes)]⟩

/-- The fault that loading the single overlay comes to, if it does. -/
def faultAlone? (bytes : ByteArray) : Option Fault :=
  match (loadOverlay (overlayAlone bytes) ⟨"/", ["a.yaml"]⟩).outcome with
  | .error (.fault f) => some f
  | _ => none

/-- An amount that is no number, also below a set, an amount that is a list, references to nothing and
by half of a surrogate pair, and a byte that is no text escape, so loading an overlay may neither give
a mapping nor blame the file. -/
theorem overlay_unblamed :
    faultAlone? "a: !alpha ['#fff', half]\n".toUTF8 = some (.value (.notANumber "half")) ∧
    faultAlone? "a: !!set\n  ? !alpha ['#fff', half]\n".toUTF8 =
      some (.value (.notANumber "half")) ∧
    faultAlone? "a: !darken ['#fff', [1]]\n".toUTF8 = some (.kind (.notANumber "list")) ∧
    faultAlone? "a: !ref ''\n".toUTF8 = some .emptyReference ∧
    faultAlone? "a: !ref \"\\ud800\"\n".toUTF8 = some .emptyReference ∧
    faultAlone? ⟨#[0xff]⟩ = some .undecodable ∧
    ¬ ∀ (t : FileTree) (path : Path),
      (∃ es, (loadOverlay t path).outcome = .ok (.map es)) ∨
        ∃ fault, (loadOverlay t path).outcome =
          .error (.token ⟨.load fault, some ⟨none, none, some path⟩⟩) := by
  have hfault : faultAlone? "a: !alpha ['#fff', half]\n".toUTF8 =
      some (.value (.notANumber "half")) := by decide +kernel
  refine ⟨hfault, by decide +kernel, by decide +kernel, by decide +kernel, by decide +kernel,
    by decide +kernel, fun h => ?_⟩
  unfold faultAlone? at hfault
  obtain ⟨es, hok⟩ | ⟨fault, herror⟩ := h (overlayAlone _) ⟨"/", ["a.yaml"]⟩
  · rw [hok] at hfault
    cases hfault
  · rw [herror] at hfault
    cases hfault

end DesignTokens
