import DesignTokens.Proofs.Interchange

/-! Reading design token files back. An object with a value that is no object is a token, any other
object is a group. What stands under a key of a group is an object always, so keys that are named
like the marks of the format are never taken for them: a tree is read back as it was, and each of
its leaves is a token with the type of its value. -/
namespace DesignTokens

open Value

/-- Whether a value is an object. -/
def Value.isObject : Value → Bool
  | .map _ => true
  | _ => false

/-- Whether a value is a number. Truth values are none. -/
def Value.IsNumber (v : Value) : Prop := (∃ i, v = .int i) ∨ ∃ x, v = .float x

mutual

/-- The tree that an object of the format stands for. -/
def fromDtcg : Value → Value
  | .map es =>
    match entry? "$value" es with
    | some v => if v.isObject then .map (entriesFromDtcg es) else v
    | none => .map (entriesFromDtcg es)
  | v => v

def entriesFromDtcg : List (Value × Value) → List (Value × Value)
  | [] => []
  | (k, v) :: rest => (k, fromDtcg v) :: entriesFromDtcg rest

end

/-- The token of a value: it holds the value and tells its type, if the format has one for it. -/
structure IsTokenOf (es : List (Value × Value)) (v : Value) : Prop where
  value : entry? "$value" es = some v
  color : entry? "$type" es = some (.text "color") ↔ Color.isColor v = true
  number : entry? "$type" es = some (.text "number") ↔ v.IsNumber
  untyped : entry? "$type" es = none ↔ ¬ Color.isColor v = true ∧ ¬ v.IsNumber
  marks : ∀ e ∈ es, e.1 = .text "$value" ∨ e.1 = .text "$type"

theorem isObject_iff {v : Value} : v.isObject = true ↔ ∃ es, v = .map es := by
  cases v <;> simp [isObject]

theorem toDtcg_of_not_object {v : Value} (h : v.isObject = false) : toDtcg v = dtcgLeaf v := by
  cases v with
  | map es => cases h
  | _ => rfl

theorem isObject_toDtcg (v : Value) : (toDtcg v).isObject = true := by
  cases v <;> rfl

theorem entry?_entriesToDtcg (key : String) (es : List (Value × Value)) :
    entry? key (entriesToDtcg es) = (Value.entry? key es).map toDtcg := by
  induction es with
  | nil => rfl
  | cons e rest ih =>
    obtain ⟨k, v⟩ := e
    rw [entriesToDtcg, entry?, entry?]
    split
    · rfl
    · exact ih

section Typed

variable {v : Value}

theorem Value.IsNumber.not_isColor (h : v.IsNumber) : ¬ Color.isColor v = true := by
  rcases h with ⟨i, rfl⟩ | ⟨x, rfl⟩
  · exact Bool.false_ne_true
  · exact Bool.false_ne_true

theorem dtcgType?_of_isColor (h : Color.isColor v = true) : dtcgType? v = some "color" := by
  unfold dtcgType?
  rw [if_pos h]

theorem dtcgType?_of_isNumber (h : v.IsNumber) : dtcgType? v = some "number" := by
  unfold dtcgType?
  rw [if_neg h.not_isColor]
  rcases h with ⟨i, rfl⟩ | ⟨x, rfl⟩
  · rfl
  · rfl

theorem dtcgType?_of_neither (hcolor : ¬ Color.isColor v = true) (hnumber : ¬ v.IsNumber) :
    dtcgType? v = none := by
  unfold dtcgType?
  rw [if_neg hcolor]
  cases v with
  | int i => exact absurd (Or.inl ⟨i, rfl⟩) hnumber
  | float x => exact absurd (Or.inr ⟨x, rfl⟩) hnumber
  | _ => rfl

/-- The types of the format exclude each other. -/
theorem dtcgType?_cases (v : Value) :
    (Color.isColor v = true ∧ ¬ v.IsNumber ∧ dtcgType? v = some "color") ∨
    (¬ Color.isColor v = true ∧ v.IsNumber ∧ dtcgType? v = some "number") ∨
    (¬ Color.isColor v = true ∧ ¬ v.IsNumber ∧ dtcgType? v = none) := by
  by_cases hnumber : v.IsNumber
  · exact Or.inr (Or.inl ⟨hnumber.not_isColor, hnumber, dtcgType?_of_isNumber hnumber⟩)
  · by_cases hcolor : Color.isColor v = true
    · exact Or.inl ⟨hcolor, hnumber, dtcgType?_of_isColor hcolor⟩
    · exact Or.inr (Or.inr ⟨hcolor, hnumber, dtcgType?_of_neither hcolor hnumber⟩)

/-- A leaf is written as the token of its value. -/
theorem exists_isTokenOf (v : Value) : ∃ es, dtcgLeaf v = .map es ∧ IsTokenOf es v := by
  refine ⟨_, dtcgLeaf_eq v, ?_⟩
  have hvalue : ∀ rest, entry? "$value" ((.text "$value", v) :: rest) = some v := by
    intro rest
    rw [Value.entry?, if_pos (by simp)]
  have htype : entry? "$type" ((.text "$value", v) ::
      (dtcgType? v).toList.map fun name => (Value.text "$type", Value.text name)) =
        (dtcgType? v).map .text := by
    rw [Value.entry?, if_neg (by simp)]
    cases dtcgType? v with
    | none => rfl
    | some name => simp [Value.entry?]
  refine ⟨hvalue _, ?_, ?_, ?_, ?_⟩
  · rw [htype]
    obtain ⟨hc, -, he⟩ | ⟨hc, -, he⟩ | ⟨hc, -, he⟩ := dtcgType?_cases v <;> simp [hc, he]
  · rw [htype]
    obtain ⟨-, hn, he⟩ | ⟨-, hn, he⟩ | ⟨-, hn, he⟩ := dtcgType?_cases v <;> simp [hn, he]
  · rw [htype]
    obtain ⟨hc, hn, he⟩ | ⟨hc, hn, he⟩ | ⟨hc, hn, he⟩ := dtcgType?_cases v <;> simp [hc, hn, he]
  · intro e he
    rcases List.mem_cons.mp he with rfl | he
    · exact Or.inl rfl
    · obtain ⟨name, -, rfl⟩ := List.mem_map.mp he
      exact Or.inr rfl

end Typed

theorem fromDtcg_token {es : List (Value × Value)} {v : Value}
    (hvalue : entry? "$value" es = some v) (hv : v.isObject = false) : fromDtcg (.map es) = v := by
  simp [fromDtcg, hvalue, hv]

/-- A group is not taken for a token, even if it has a key named like the mark of a value. -/
theorem fromDtcg_group (es : List (Value × Value)) :
    fromDtcg (.map (entriesToDtcg es)) = .map (entriesFromDtcg (entriesToDtcg es)) := by
  rw [fromDtcg, entry?_entriesToDtcg]
  cases entry? "$value" es with
  | none => rfl
  | some v => simp [isObject_toDtcg]

mutual

theorem fromDtcg_toDtcg (tree : Value) : fromDtcg (toDtcg tree) = tree := by
  cases tree with
  | map es =>
    rw [toDtcg, fromDtcg_group, entriesFromDtcg_entriesToDtcg es]
  | _ =>
    obtain ⟨es, hes, htoken⟩ := exists_isTokenOf _
    exact (congrArg fromDtcg hes).trans (fromDtcg_token htoken.value rfl)

theorem entriesFromDtcg_entriesToDtcg (es : List (Value × Value)) :
    entriesFromDtcg (entriesToDtcg es) = es := by
  match es with
  | [] => rfl
  | (k, v) :: rest =>
    rw [entriesToDtcg, entriesFromDtcg, fromDtcg_toDtcg v, entriesFromDtcg_entriesToDtcg rest]

end

section Positions

variable {tree v : Value} {ks : List Value}

theorem Position.toDtcg (h : Position tree ks v) :
    Position (DesignTokens.toDtcg tree) ks (DesignTokens.toDtcg v) := by
  induction h with
  | here v => exact .here _
  | @under k x y es ks hmem _ ih =>
    have hentry : (k, DesignTokens.toDtcg x) ∈ entriesToDtcg es := by
      rw [entriesToDtcg_eq_map]
      exact List.mem_map.mpr ⟨(k, x), hmem, rfl⟩
    exact .under hentry ih

/-- Nothing stands inside a leaf. -/
theorem Position.of_not_object (h : Position tree ks v) (htree : tree.isObject = false) :
    ks = [] ∧ v = tree := by
  cases h with
  | here => exact ⟨rfl, rfl⟩
  | under => cases htree

/-- Every object in what is written stands where a node of the tree does. -/
theorem exists_position_of_toDtcg {x : Value} (h : Position x ks v) (hv : v.isObject = true)
    (hx : x = toDtcg tree) : ∃ w, Position tree ks w ∧ v = toDtcg w := by
  induction h generalizing tree with
  | here x => exact ⟨tree, .here tree, hx⟩
  | @under k y v es ks hmem hpos ih =>
    cases htree : tree.isObject with
    | true =>
      obtain ⟨inner, rfl⟩ := isObject_iff.mp htree
      rw [toDtcg, Value.map.injEq] at hx
      rw [hx, entriesToDtcg_eq_map] at hmem
      obtain ⟨⟨l, z⟩, hz, he⟩ := List.mem_map.mp hmem
      obtain ⟨rfl, rfl⟩ := Prod.mk.inj he
      obtain ⟨w, hw, hvw⟩ := ih hv rfl
      exact ⟨w, .under hz hw, hvw⟩
    | false =>
      -- Of a token no entry is an object, so no object stands below it.
      have hleaf : y.isObject = false := by
        rw [toDtcg_of_not_object htree, dtcgLeaf_eq, Value.map.injEq] at hx
        rw [hx] at hmem
        rcases List.mem_cons.mp hmem with he | hmem
        · exact (Prod.mk.inj he).2 ▸ htree
        · obtain ⟨name, -, he⟩ := List.mem_map.mp hmem
          exact (Prod.mk.inj he).2 ▸ rfl
      obtain ⟨-, rfl⟩ := hpos.of_not_object hleaf
      rw [hleaf] at hv
      cases hv

end Positions

/-- A tree is read back from the format as it was, in the same order, whatever its keys are. A leaf
stands at a place exactly if an object with it as the value stands there in what is written, and
this object is the token of the leaf: it tells that the leaf is a colour or a number, if it is one,
and nothing else. -/
theorem toDtcg_decodes (tree : Value) :
    fromDtcg (toDtcg tree) = tree ∧
    ∀ ks v, v.isObject = false →
      (Position tree ks v ↔
        ∃ es, Position (toDtcg tree) ks (.map es) ∧ entry? "$value" es = some v) ∧
      ∀ es, Position (toDtcg tree) ks (.map es) → entry? "$value" es = some v →
        IsTokenOf es v := by
  have htoken : ∀ ks v es, v.isObject = false → Position (toDtcg tree) ks (.map es) →
      entry? "$value" es = some v → Position tree ks v ∧ IsTokenOf es v := by
    intro ks v es hv hpos hvalue
    obtain ⟨w, hw, he⟩ := exists_position_of_toDtcg hpos rfl rfl
    -- The object is read back as its value, and as the node that it was written for.
    have hwv : w = v := by rw [← fromDtcg_toDtcg w, ← he, fromDtcg_token hvalue hv]
    subst hwv
    obtain ⟨es', hes', htoken⟩ := exists_isTokenOf w
    rw [toDtcg_of_not_object hv, hes', Value.map.injEq] at he
    exact ⟨hw, he ▸ htoken⟩
  refine ⟨fromDtcg_toDtcg tree, fun ks v hv => ⟨⟨fun hpos => ?_, fun h => ?_⟩, ?_⟩⟩
  · obtain ⟨es, hes, htoken⟩ := exists_isTokenOf v
    have hleaf := hpos.toDtcg
    rw [toDtcg_of_not_object hv, hes] at hleaf
    exact ⟨es, hleaf, htoken.value⟩
  · obtain ⟨es, hpos, hvalue⟩ := h
    exact (htoken ks v es hv hpos hvalue).1
  · exact fun es hpos hvalue => (htoken ks v es hv hpos hvalue).2

/-- A group with keys that are named like the marks of the format. -/
example :
    let tree : Value := .map [(.text "$value", .map [(.text "$type", .text "#fff")]),
      (.text "$type", .int 1)]
    toDtcg tree =
        .map [(.text "$value", .map [(.text "$type",
            .map [(.text "$value", .text "#fff"), (.text "$type", .text "color")])]),
          (.text "$type", .map [(.text "$value", .int 1), (.text "$type", .text "number")])] ∧
      fromDtcg (toDtcg tree) = tree := by
  exact ⟨by rfl, by rfl⟩

end DesignTokens
