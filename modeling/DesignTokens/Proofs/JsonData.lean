import DesignTokens.Json.Writer
import DesignTokens.Proofs.Entries
import DesignTokens.Proofs.Outcomes

/-! Reading JSON gives nothing but data: values without parts, lists of data, and mappings of data
under text keys. Data can be written in every layout, so whatever has been read can be written. -/
namespace DesignTokens.Json

/-- What a JSON text can hold. -/
inductive IsData : Value → Prop where
  | null : IsData .null
  | bool (b : Bool) : IsData (.bool b)
  | int {i : Int} (h : Number.isWritable i) : IsData (.int i)
  | float (x : Binary64) : IsData (.float x)
  | text (s : String) : IsData (.text s)
  | list {xs : List Value} (h : ∀ v ∈ xs, IsData v) : IsData (.list xs)
  | map {es : List (Value × Value)} (hkeys : ∀ e ∈ es, ∃ k, e.1 = .text k)
      (h : ∀ e ∈ es, IsData e.2) : IsData (.map es)

theorem textsIn_eq_ok {layout : Layout} {xs : List Value} :
    (∃ ss, textsIn layout xs = .ok ss) ↔ ∀ v ∈ xs, ∃ s, textIn layout v = .ok s := by
  induction xs with
  | nil => simp [textsIn]
  | cons v rest ih =>
    rw [List.forall_mem_cons, ← ih, textsIn]
    cases textIn layout v <;> cases textsIn layout rest <;> simp

theorem entriesIn_eq_ok {layout : Layout} {es : List (Value × Value)} :
    (∃ ss, entriesIn layout es = .ok ss) ↔
      ∀ e ∈ es, (∃ k, keyText e.1 = .ok k) ∧ ∃ s, textIn layout e.2 = .ok s := by
  induction es with
  | nil => simp [entriesIn]
  | cons e rest ih =>
    obtain ⟨k, v⟩ := e
    rw [List.forall_mem_cons, ← ih, entriesIn]
    cases keyText k <;> cases textIn layout v <;> cases entriesIn layout rest <;> simp

theorem textIn_list {layout : Layout} {xs : List Value} :
    (∃ s, textIn layout (.list xs) = .ok s) ↔ ∀ v ∈ xs, ∃ s, textIn layout.inner v = .ok s := by
  rw [textIn, ← textsIn_eq_ok]
  cases textsIn layout.inner xs <;> simp

theorem textIn_map {layout : Layout} {es : List (Value × Value)} :
    (∃ s, textIn layout (.map es) = .ok s) ↔
      ∀ e ∈ es, (∃ k, keyText e.1 = .ok k) ∧ ∃ s, textIn layout.inner e.2 = .ok s := by
  rw [textIn, ← entriesIn_eq_ok]
  cases entriesIn layout.inner es <;> simp

/-- Data can be written. -/
theorem IsData.textIn {v : Value} (h : IsData v) (layout : Layout) :
    ∃ s, textIn layout v = .ok s := by
  induction h generalizing layout with
  | null => exact ⟨_, rfl⟩
  | bool b => exact ⟨_, rfl⟩
  | int h => exact ⟨_, if_pos h⟩
  | float x => exact ⟨_, rfl⟩
  | text s => exact ⟨_, rfl⟩
  | list _ ih => exact textIn_list.mpr fun v hv => ih v hv layout.inner
  | map hkeys _ ih =>
    refine textIn_map.mpr fun e he => ⟨?_, ih e he layout.inner⟩
    obtain ⟨k, hk⟩ := hkeys e he
    exact ⟨_, by rw [hk]; rfl⟩

/-- A number as it is spelled: an integer, or a floating-point number. -/
theorem number?_cases {s rest : List Char} {v : Value} (h : number? s = some (v, rest)) :
    (∃ i, v = .int i) ∨ ∃ x, v = .float x := by
  unfold number? at h
  split at h
  simp only [Option.bind_eq_bind, Option.bind_eq_some_iff] at h
  obtain ⟨⟨whole, after⟩, -, h⟩ := h
  split at h <;> simp only [Option.some.injEq, Prod.mk.injEq] at h <;> obtain ⟨rfl, -⟩ := h
  · exact Or.inl ⟨_, rfl⟩
  · exact Or.inr ⟨_, rfl⟩

theorem scalar?_data {s rest : List Char} {v : Value} (h : scalar? s = some (v, rest)) :
    (∃ i, v = .int i) ∨ IsData v := by
  rw [scalar?] at h
  split at h
  · next w u hfind =>
    obtain ⟨rfl, -⟩ : u = v ∧ _ := by simpa using h
    have hmem := List.mem_of_find?_eq_some hfind
    simp only [words, List.mem_cons, Prod.mk.injEq, List.not_mem_nil, or_false] at hmem
    refine Or.inr ?_
    rcases hmem with ⟨-, rfl⟩ | ⟨-, rfl⟩ | ⟨-, rfl⟩ | ⟨-, rfl⟩ | ⟨-, rfl⟩ | ⟨-, rfl⟩ <;> constructor
  · rcases number?_cases h with hint | ⟨x, rfl⟩
    · exact Or.inl hint
    · exact Or.inr (.float x)

/-- Entries of data under text keys. -/
def AreData (es : List (Value × Value)) : Prop := ∀ e ∈ es, (∃ k, e.1 = .text k) ∧ IsData e.2

section Readers

variable {fuel : Nat} {s rest : List Char}
  (hvalue : ∀ s v rest, value fuel s = .ok (v, rest) → IsData v)
  (hitems : ∀ s vs rest, items fuel s = .ok (vs, rest) → ∀ v ∈ vs, IsData v)
  (hentries : ∀ s es rest, entries fuel s = .ok (es, rest) → AreData es)

include hitems hentries in
theorem value_step {v : Value} (h : value (fuel + 1) s = .ok (v, rest)) : IsData v := by
  unfold value at h
  split at h
  · split at h
    · cases h
      exact .text _
    · cases h
  · split at h
    · cases h
      exact .list (by simp)
    · obtain ⟨⟨vs, after⟩, hvs, h⟩ := bind_eq_ok.mp h
      cases h
      exact .list (hitems _ _ _ hvs)
  · split at h
    · cases h
      exact .map (by simp) (by simp)
    · obtain ⟨⟨es, after⟩, hes, h⟩ := bind_eq_ok.mp h
      cases h
      have hdata := Value.forall_mem_ofEntries (K := fun key => ∃ k, key = .text k)
        (V := IsData) (hentries _ _ _ hes)
      exact .map (fun e he => (hdata e he).1) fun e he => (hdata e he).2
  · split at h
    · split at h
      · next hwritable =>
        cases h
        exact .int hwritable
      · cases h
    · next hint hscalar =>
      cases h
      exact (scalar?_data hscalar).resolve_left fun ⟨i, hi⟩ => hint i rest (by rw [hi])
    · cases h

include hvalue hitems in
theorem items_step {vs : List Value} (h : items (fuel + 1) s = .ok (vs, rest)) :
    ∀ v ∈ vs, IsData v := by
  unfold items at h
  obtain ⟨⟨v, after⟩, hv, h⟩ := bind_eq_ok.mp h
  have hv := hvalue _ _ _ hv
  dsimp only at h
  split at h
  · cases h
    simpa using hv
  · obtain ⟨⟨more, tail⟩, hmore, h⟩ := bind_eq_ok.mp h
    cases h
    exact List.forall_mem_cons.mpr ⟨hv, hitems _ _ _ hmore⟩
  · cases h

include hvalue hentries in
theorem entries_step {es : List (Value × Value)} (h : entries (fuel + 1) s = .ok (es, rest)) :
    AreData es := by
  unfold entries at h
  split at h
  · split at h
    · cases h
    · split at h
      · obtain ⟨⟨v, after⟩, hv, h⟩ := bind_eq_ok.mp h
        have hv := hvalue _ _ _ hv
        dsimp only at h
        split at h
        · cases h
          simpa [AreData] using hv
        · obtain ⟨⟨more, tail⟩, hmore, h⟩ := bind_eq_ok.mp h
          cases h
          exact List.forall_mem_cons.mpr ⟨⟨⟨_, rfl⟩, hv⟩, hentries _ _ _ hmore⟩
        · cases h
      · cases h
  · cases h

end Readers

/-- What the readers give, at any fuel. -/
theorem value_data (fuel : Nat) :
    (∀ s v rest, value fuel s = .ok (v, rest) → IsData v) ∧
    (∀ s vs rest, items fuel s = .ok (vs, rest) → ∀ v ∈ vs, IsData v) ∧
    (∀ s es rest, entries fuel s = .ok (es, rest) → AreData es) := by
  induction fuel with
  | zero => simp [value, items, entries]
  | succ fuel ih =>
    obtain ⟨hvalue, hitems, hentries⟩ := ih
    exact ⟨fun _ _ _ => value_step hitems hentries, fun _ _ _ => items_step hvalue hitems,
      fun _ _ _ => entries_step hvalue hentries⟩

/-- A text that is JSON holds data. -/
theorem read_data {text : String} {v : Value} (h : read text = .ok v) : IsData v := by
  unfold read at h
  simp only at h
  split at h
  · next w rest hvalue =>
    split at h
    · cases h
      exact (value_data _).1 _ _ _ hvalue
    · cases h
  all_goals cases h

end DesignTokens.Json
