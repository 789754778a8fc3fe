import DesignTokens.Proofs.Entries
import DesignTokens.Proofs.Identifiers
import DesignTokens.Proofs.Interchange

/-! Camel case as a normal form. A key is in camel case if it is one word that begins with no capital,
or no word at all; a tree is if its keys are, and no mapping repeats one. Rewriting leads there from
every tree, however its keys collide on the way, and changes nothing that is there already. -/
namespace DesignTokens

open Text

/-- A key in camel case: it holds nothing but what separates words, or nothing of that, and then it
begins with a character that is its own lower case. -/
def IsCamel (key : String) : Prop :=
  (∀ c ∈ key.toList, separatesWords c = true) ∨
    (∀ c ∈ key.toList, separatesWords c = false) ∧ ∀ c ∈ key.toList.head?, lowerChar c = [c]

/-- A tree in camel case: its mappings have different texts in camel case as keys, down to what is
neither a mapping nor a list. -/
inductive Value.InCamelCase : Value → Prop where
  | map {es : List (Value × Value)} (hnodup : (es.map (·.1)).Nodup)
      (hkeys : ∀ e ∈ es, ∃ k, e.1 = .text k ∧ IsCamel k)
      (hvalues : ∀ e ∈ es, InCamelCase e.2) : InCamelCase (.map es)
  | list {xs : List Value} (hitems : ∀ x ∈ xs, InCamelCase x) : InCamelCase (.list xs)
  | leaf {v : Value} (hmap : ∀ es, v ≠ .map es) (hlist : ∀ xs, v ≠ .list xs) : InCamelCase v

theorem separatesWords_eq_false {c : Char} :
    separatesWords c = false ↔ c ≠ '-' ∧ c ≠ '_' ∧ isBlank c = false := by
  simp [separatesWords, and_assoc]

section Keys

variable {key : String}

theorem toCamel_of_word (hne : key.toList ≠ [])
    (h : ∀ c ∈ key.toList, separatesWords c = false) :
    (toCamel key).toList = withFirst lowerChar key.toList := by
  have hwords : wordsBetween separatesWords key.toList = [key.toList] := by
    rw [wordsBetween, splitWhere_of_forall h]
    simpa using hne
  rw [toCamel_of_words hwords, List.flatMap_nil, List.append_nil]

theorem isCamel_toCamel (key : String) : IsCamel (toCamel key) := by
  rcases words_cases key with hless | ⟨first, rest, hwords⟩
  · left
    rw [toCamel_of_wordless hless]
    exact hless
  · right
    have hmem : first ∈ wordsBetween separatesWords key.toList := hwords ▸ List.mem_cons_self
    obtain ⟨c, word, rfl⟩ := List.exists_cons_of_ne_nil (word_ne_nil hmem)
    have hc : c ∈ key.toList ∧ separatesWords c = false :=
      mem_wordsBetween.mp ⟨c :: word, hmem, List.mem_cons_self⟩
    refine ⟨toCamel_not_separates ⟨c, hc⟩, ?_⟩
    obtain ⟨d, ds, hlower⟩ := List.exists_cons_of_ne_nil (lowerChar_ne_nil c)
    have hd : lowerChar d = [d] := lowerChar_of_mem (hlower ▸ List.mem_cons_self)
    rw [toCamel_of_words hwords, withFirst, hlower]
    simpa using hd

theorem IsCamel.toCamel_eq (h : IsCamel key) : toCamel key = key := by
  rcases h with hless | ⟨hword, hfirst⟩
  · exact toCamel_of_wordless hless
  · cases hkey : key.toList with
    | nil => exact toCamel_of_wordless (by simp [hkey])
    | cons c rest =>
      have hlower : lowerChar c = [c] := hfirst c (by simp [hkey])
      apply String.toList_injective
      rw [toCamel_of_word (by simp [hkey]) hword, hkey, withFirst, hlower]
      rfl

end Keys

section Letters

/-! A key of ASCII characters loses nothing but what separates its words, and the case of a letter. -/

variable {key : String}

theorem toLower_lowerChar {c : Char} (hc : c.toNat < 128) :
    (lowerChar c).map Char.toLower = [c.toLower] := by
  rw [lowerChar, if_pos hc, List.map_singleton, Char.toLower_toLower_eq_toLower]

theorem toLower_upperChar {c : Char} (hc : c.toNat < 128) :
    (upperChar c).map Char.toLower = [c.toLower] := by
  rw [upperChar, if_pos hc, List.map_singleton, Char.toLower_toUpper_eq_toLower]

theorem toLower_withFirst {change : Char → List Char} {word : List Char}
    (hchange : ∀ c : Char, c.toNat < 128 → (change c).map Char.toLower = [c.toLower])
    (hword : ∀ c ∈ word, c.toNat < 128) :
    (withFirst change word).map Char.toLower = word.map Char.toLower := by
  cases word with
  | nil => rfl
  | cons c rest =>
    rw [withFirst, List.map_append, hchange c (hword c List.mem_cons_self)]
    rfl

theorem toLower_toCamel (hascii : ∀ c ∈ key.toList, c.toNat < 128)
    (hword : ∃ c ∈ key.toList, separatesWords c = false) :
    (toCamel key).toList.map Char.toLower =
      (key.toList.filter (!separatesWords ·)).map Char.toLower := by
  obtain ⟨first, rest, hwords⟩ := exists_words hword
  have hletters : ∀ word ∈ first :: rest, ∀ c ∈ word, c.toNat < 128 := fun word hmem c hc =>
    hascii c (mem_wordsBetween.mp ⟨word, hwords ▸ hmem, hc⟩).1
  obtain ⟨hfirst, hrest⟩ := List.forall_mem_cons.mp hletters
  have hlater : (rest.flatMap (withFirst upperChar)).map Char.toLower =
      rest.flatten.map Char.toLower := by
    rw [List.map_flatMap, List.map_flatten, ← List.flatMap_def]
    exact List.flatMap_congr fun word hmem =>
      toLower_withFirst (fun c hc => toLower_upperChar hc) (hrest word hmem)
  calc (toCamel key).toList.map Char.toLower
      = (withFirst lowerChar first).map Char.toLower ++
          (rest.flatMap (withFirst upperChar)).map Char.toLower := by
        rw [toCamel_of_words hwords, List.map_append]
    _ = first.map Char.toLower ++ rest.flatten.map Char.toLower := by
        rw [toLower_withFirst (fun c hc => toLower_lowerChar hc) hfirst, hlater]
    _ = (wordsBetween separatesWords key.toList).flatten.map Char.toLower := by
        rw [hwords, List.flatten_cons, List.map_append]
    _ = (key.toList.filter (!separatesWords ·)).map Char.toLower := by
        rw [wordsBetween_flatten]

end Letters

section Trees

variable {v : Value}

theorem camelizeItems_eq_map (xs : List Value) : camelizeItems xs = xs.map camelizeKeys := by
  induction xs with
  | nil => simp [camelizeItems]
  | cons x rest ih => simp [camelizeItems, ih]

theorem camelizeKeys_leaf (hmap : ∀ es, v ≠ .map es) (hlist : ∀ xs, v ≠ .list xs) :
    camelizeKeys v = v := by
  cases v with
  | map es => exact absurd rfl (hmap es)
  | list xs => exact absurd rfl (hlist xs)
  | _ => rw [camelizeKeys] <;> simp

mutual

/-- Rewriting leads into camel case. -/
theorem camelizeKeys_inCamelCase (v : Value) : (camelizeKeys v).InCamelCase := by
  cases v with
  | map es =>
    have hentries := camelizeEntries_inCamelCase es
    have hcollected := Value.forall_mem_ofEntries
      (K := fun key => ∃ k, key = .text k ∧ IsCamel k) (V := Value.InCamelCase) hentries
    rw [camelizeKeys]
    refine .map (Value.ofEntries_nodup fun e he => ?_) (fun e he => (hcollected e he).1)
      fun e he => (hcollected e he).2
    obtain ⟨⟨k, hk, -⟩, -⟩ := hentries e he
    exact ⟨k, hk⟩
  | list xs =>
    rw [camelizeKeys]
    exact .list (camelizeItems_inCamelCase xs)
  | _ =>
    rw [camelizeKeys_leaf (by simp) (by simp)]
    exact .leaf (by simp) (by simp)

theorem camelizeItems_inCamelCase (xs : List Value) :
    ∀ x ∈ camelizeItems xs, x.InCamelCase := by
  match xs with
  | [] => simp [camelizeItems]
  | x :: rest =>
    rw [camelizeItems]
    exact List.forall_mem_cons.mpr ⟨camelizeKeys_inCamelCase x, camelizeItems_inCamelCase rest⟩

theorem camelizeEntries_inCamelCase (es : List (Value × Value)) :
    ∀ e ∈ camelizeEntries es, (∃ k, e.1 = .text k ∧ IsCamel k) ∧ e.2.InCamelCase := by
  match es with
  | [] => simp [camelizeEntries]
  | (k, v) :: rest =>
    rw [camelizeEntries]
    exact List.forall_mem_cons.mpr
      ⟨⟨⟨toCamel k.plain, rfl, isCamel_toCamel k.plain⟩, camelizeKeys_inCamelCase v⟩,
        camelizeEntries_inCamelCase rest⟩

end

theorem Value.InCamelCase.camelizeKeys_eq (h : v.InCamelCase) : camelizeKeys v = v := by
  induction h with
  | @map es hnodup hkeys _ ih =>
    have hsame : ∀ e ∈ es, (.text (toCamel e.1.plain), camelizeKeys e.2) = e := by
      intro e he
      obtain ⟨key, x⟩ := e
      obtain ⟨k, rfl, hk⟩ := hkeys _ he
      rw [Value.plain_text, hk.toCamel_eq, ih _ he]
    have hentries : camelizeEntries es = es := by
      rw [camelizeEntries_eq_map, List.map_congr_left hsame, List.map_id']
    rw [camelizeKeys, hentries, Value.ofEntries_of_nodup hnodup fun e he => ?_]
    obtain ⟨k, hk, -⟩ := hkeys e he
    exact ⟨k, hk⟩
  | @list xs _ ih =>
    rw [camelizeKeys, camelizeItems_eq_map, List.map_congr_left ih, List.map_id']
  | leaf hmap hlist => exact camelizeKeys_leaf hmap hlist

/-- A tree is in camel case exactly if rewriting leaves it as it is. -/
theorem camelizeKeys_eq_self : camelizeKeys v = v ↔ v.InCamelCase :=
  ⟨fun h => h ▸ camelizeKeys_inCamelCase v, Value.InCamelCase.camelizeKeys_eq⟩

end Trees

/-- Rewriting a tree of any keys once more changes nothing, neither keys nor their order nor values,
and it is in camel case exactly if rewriting it at all does not. A key without words stays as it is.
The camel form of any other holds no hyphen, underscore or white space, and if the key is of ASCII
characters it lost nothing else and differs by the case of letters only. -/
theorem camelizeKeys_idempotent :
    (∀ tree : Value, camelizeKeys (camelizeKeys tree) = camelizeKeys tree ∧
      (camelizeKeys tree = tree ↔ tree.InCamelCase)) ∧
    ∀ key : String,
      ((∀ c ∈ key.toList, c = '-' ∨ c = '_' ∨ isBlank c = true) → toCamel key = key) ∧
      ((∃ c ∈ key.toList, c ≠ '-' ∧ c ≠ '_' ∧ isBlank c = false) →
        (∀ c ∈ (toCamel key).toList, c ≠ '-' ∧ c ≠ '_' ∧ isBlank c = false) ∧
        ((∀ c ∈ key.toList, c.toNat < 128) → (toCamel key).toList.map Char.toLower =
          (key.toList.filter (!separatesWords ·)).map Char.toLower)) := by
  refine ⟨fun tree => ⟨?_, camelizeKeys_eq_self⟩, fun key => ⟨fun hless => ?_, fun hword => ?_⟩⟩
  · exact (camelizeKeys_inCamelCase tree).camelizeKeys_eq
  · refine toCamel_of_wordless fun c hc => ?_
    by_contra hne
    have hnone := separatesWords_eq_false.mp (Bool.eq_false_iff.mpr hne)
    grind
  · simp only [← separatesWords_eq_false] at hword ⊢
    exact ⟨toCamel_not_separates hword, fun hascii => toLower_toCamel hascii hword⟩

/-- Keys of several kinds that become one, also inside a list, and one without words. -/
def collidingKeys : Value :=
  .map [(.text "a-b", .list [.map [(.text "X_y", .int 1)]]), (.int 1, .null),
    (.text "aB", .map [(.text "- -", .int 2), (.text " b\tc", .int 3)]),
    (.text "1", .list [.map [(.text "d__e", .int 4), (.text "D-e", .int 5)]])]

theorem camelizeKeys_idempotent_colliding :
    camelizeKeys collidingKeys =
      .map [(.text "aB", .map [(.text "- -", .int 2), (.text "bC", .int 3)]),
        (.text "1", .list [.map [(.text "dE", .int 5)]])] ∧
      camelizeKeys (camelizeKeys collidingKeys) = camelizeKeys collidingKeys ∧
      (camelizeKeys collidingKeys).InCamelCase ∧
      toCamel "- -" = "- -" ∧ toCamel "On-light_ FG" = "onLightFG" ∧
      (∀ c ∈ (toCamel "On-light_ FG").toList, c ≠ '-' ∧ c ≠ '_' ∧ isBlank c = false) ∧
      (toCamel "On-light_ FG").toList.map Char.toLower =
        ("On-light_ FG".toList.filter (!separatesWords ·)).map Char.toLower := by
  obtain ⟨htrees, hkeys⟩ := camelizeKeys_idempotent
  have hagain := (htrees collidingKeys).1
  have hless : ∀ c ∈ "- -".toList, c = '-' ∨ c = '_' ∨ isBlank c = true := by simp [isBlank]
  have hword : ∃ c ∈ "On-light_ FG".toList, c ≠ '-' ∧ c ≠ '_' ∧ isBlank c = false :=
    ⟨'O', by decide, by decide⟩
  have hascii : ∀ c ∈ "On-light_ FG".toList, c.toNat < 128 := by simp
  obtain ⟨hnone, hletters⟩ := (hkeys "On-light_ FG").2 hword
  exact ⟨by rfl, hagain, (htrees _).2.mp hagain, (hkeys "- -").1 hless, by decide +kernel, hnone,
    hletters hascii⟩

end DesignTokens
