import DesignTokens.Value
import Mathlib.Data.List.Induction
import Mathlib.Data.List.Nodup

/-! Mappings under text keys. A text is one key with itself alone, so looking up and inserting
under texts behave as in a table, whatever other keys a mapping holds. -/
namespace DesignTokens.Value

@[simp] theorem sameKey_text (v : Value) (k : String) :
    sameKey v (.text k) = true ↔ v = .text k := by
  cases v <;> simp [sameKey, number?]

theorem mem_of_entry?_eq_some {k : String} {v : Value} {es : List (Value × Value)}
    (h : entry? k es = some v) : (.text k, v) ∈ es := by
  induction es with
  | nil => simp [Value.entry?] at h
  | cons e rest ih =>
    rw [Value.entry?] at h
    split at h
    · next hk =>
      obtain rfl : e.2 = v := by simpa using h
      have hk : e.1 = .text k := by simpa using hk
      simp [← hk]
    · exact List.mem_cons_of_mem _ (ih h)

theorem entry?_eq_none {k : String} {es : List (Value × Value)} :
    entry? k es = none ↔ .text k ∉ es.map (·.1) := by
  induction es with
  | nil => simp [Value.entry?]
  | cons e rest ih =>
    rw [Value.entry?, List.map_cons, List.mem_cons, not_or, ← ih]
    split
    · next hk =>
      have hk : e.1 = .text k := by simpa using hk
      simp [hk]
    · next hk =>
      have hk : e.1 ≠ .text k := by simpa using hk
      simp [Ne.symm hk]

/-- Where keys are not repeated, looking up finds what the mapping holds. -/
theorem entry?_of_mem {k : String} {v : Value} {es : List (Value × Value)}
    (hn : (es.map (·.1)).Nodup) (h : (.text k, v) ∈ es) : entry? k es = some v := by
  cases hg : entry? k es with
  | none => exact absurd (List.mem_map.mpr ⟨_, h, rfl⟩) (entry?_eq_none.mp hg)
  | some w =>
    have he := List.inj_on_of_nodup_map hn (mem_of_entry?_eq_some hg) h rfl
    rw [(Prod.mk.inj he).2]

theorem insertEntry_of_not_mem {k : String} {v : Value} {es : List (Value × Value)}
    (h : .text k ∉ es.map (·.1)) : insertEntry (.text k) v es = es ++ [(.text k, v)] := by
  induction es with
  | nil => rfl
  | cons e rest ih =>
    simp only [List.map_cons, List.mem_cons, not_or] at h
    rw [insertEntry, if_neg (by simpa using Ne.symm h.1), ih h.2, List.cons_append]

theorem keys_insertEntry_of_mem {k : String} {v : Value} {es : List (Value × Value)}
    (h : .text k ∈ es.map (·.1)) : (insertEntry (.text k) v es).map (·.1) = es.map (·.1) := by
  induction es with
  | nil => simp at h
  | cons e rest ih =>
    rw [insertEntry]
    split
    · rfl
    · next hne =>
      have hk : .text k ∈ rest.map (·.1) := by
        rcases List.mem_cons.mp h with he | h
        · exact absurd he.symm (by simpa using hne)
        · exact h
      simp [ih hk]

theorem mem_insertEntry {k : String} {v : Value} {es : List (Value × Value)} {e : Value × Value}
    (hn : (es.map (·.1)).Nodup) :
    e ∈ insertEntry (.text k) v es ↔ e = (.text k, v) ∨ (e ∈ es ∧ e.1 ≠ .text k) := by
  induction es with
  | nil => simp [insertEntry]
  | cons f rest ih =>
    obtain ⟨hf, hrest⟩ := List.nodup_cons.mp hn
    have hother : ∀ e ∈ rest, e.1 ≠ f.1 := fun e he h => hf (List.mem_map.mpr ⟨e, he, h⟩)
    rw [insertEntry]
    split
    · next hk =>
      have hk : f.1 = .text k := by simpa using hk
      grind
    · next hk =>
      have hk : f.1 ≠ .text k := by simpa using hk
      grind

theorem mem_keys_insertEntry {k l : String} {v : Value} {es : List (Value × Value)} :
    .text l ∈ (insertEntry (.text k) v es).map (·.1) ↔ l = k ∨ .text l ∈ es.map (·.1) := by
  by_cases hk : .text k ∈ es.map (·.1)
  · rw [keys_insertEntry_of_mem hk]
    grind
  · rw [insertEntry_of_not_mem hk]
    simp
    grind

section Collecting

variable {K V : Value → Prop} {es : List (Value × Value)}

theorem forall_mem_insertEntry {key v : Value} (hkey : K key) (hv : V v)
    (h : ∀ e ∈ es, K e.1 ∧ V e.2) : ∀ e ∈ insertEntry key v es, K e.1 ∧ V e.2 := by
  induction es with
  | nil => exact List.forall_mem_singleton.mpr ⟨hkey, hv⟩
  | cons f rest ih =>
    obtain ⟨hf, hrest⟩ := List.forall_mem_cons.mp h
    rw [insertEntry]
    split
    · exact List.forall_mem_cons.mpr ⟨⟨hf.1, hv⟩, hrest⟩
    · exact List.forall_mem_cons.mpr ⟨hf, ih hrest⟩

theorem ofEntries_append (es : List (Value × Value)) (e : Value × Value) :
    ofEntries (es ++ [e]) = insertEntry e.1 e.2 (ofEntries es) := by
  simp [ofEntries]

/-- What holds of all keys and values holds of those that are collected. -/
theorem forall_mem_ofEntries (h : ∀ e ∈ es, K e.1 ∧ V e.2) :
    ∀ e ∈ ofEntries es, K e.1 ∧ V e.2 := by
  induction es using List.reverseRecOn with
  | nil => simp [ofEntries]
  | append_singleton es e ih =>
    have hrest := ih fun f hf => h f (List.mem_append_left _ hf)
    have hlast := h e (by simp)
    rw [ofEntries_append]
    exact forall_mem_insertEntry hlast.1 hlast.2 hrest

theorem mem_keys_ofEntries {k : String} (htext : ∀ e ∈ es, ∃ k, e.1 = .text k) :
    .text k ∈ (ofEntries es).map (·.1) ↔ .text k ∈ es.map (·.1) := by
  induction es using List.reverseRecOn with
  | nil => simp [ofEntries]
  | append_singleton es e ih =>
    obtain ⟨l, hl⟩ := htext e (by simp)
    have hrest := ih fun f hf => htext f (List.mem_append_left _ hf)
    rw [ofEntries_append, hl, mem_keys_insertEntry, hrest]
    simp [hl, or_comm]

/-- Collecting repeats no text. -/
theorem ofEntries_nodup (htext : ∀ e ∈ es, ∃ k, e.1 = .text k) :
    ((ofEntries es).map (·.1)).Nodup := by
  induction es using List.reverseRecOn with
  | nil => simp [ofEntries]
  | append_singleton es e ih =>
    obtain ⟨k, hk⟩ := htext e (by simp)
    have hrest := ih fun f hf => htext f (List.mem_append_left _ hf)
    rw [ofEntries_append, hk]
    by_cases hmem : .text k ∈ (ofEntries es).map (·.1)
    · rw [keys_insertEntry_of_mem hmem]
      exact hrest
    · rw [insertEntry_of_not_mem hmem, List.map_append]
      exact hrest.append (List.nodup_singleton _) (by simpa using hmem)

/-- Entries under different texts are collected as they are. -/
theorem ofEntries_of_nodup (hnodup : (es.map (·.1)).Nodup)
    (htext : ∀ e ∈ es, ∃ k, e.1 = .text k) : ofEntries es = es := by
  suffices hfold : ∀ acc : List (Value × Value), (∀ e ∈ es, e.1 ∉ acc.map (·.1)) →
      es.foldl (fun acc e => insertEntry e.1 e.2 acc) acc = acc ++ es from hfold [] (by simp)
  induction es with
  | nil => simp
  | cons e rest ih =>
    obtain ⟨key, v⟩ := e
    obtain ⟨k, rfl⟩ := htext _ List.mem_cons_self
    obtain ⟨hk, hrest⟩ := List.nodup_cons.mp hnodup
    intro acc hacc
    rw [List.foldl_cons, insertEntry_of_not_mem (hacc _ List.mem_cons_self),
      ih hrest (fun f hf => htext f (List.mem_cons_of_mem _ hf)), List.append_assoc]
    · rfl
    · intro f hf
      have hne : f.1 ≠ .text k := fun he => hk (List.mem_map.mpr ⟨f, hf, he⟩)
      simpa [hne] using hacc f (List.mem_cons_of_mem _ hf)

end Collecting

end DesignTokens.Value
