import DesignTokens.Proofs.Reached

/-! Where the addition of a tree stops. Leaves are inserted one after the other, up to one that is
refused or to a key without a text. Neither changes anything, so an addition that fails leaves the set
that the tree gives when it is cut down to the leaves before. -/
namespace DesignTokens

namespace Value

mutual

/-- A value cut down to its first leaves, in the order of their declaration. -/
def cut (n : Nat) : Value → Value
  | .map es => .map (cutEntries n es)
  | .group cs => .group (cutEntries n cs)
  | v => v

/-- Entries cut down to their first leaves. Nothing stands behind the last of these. -/
def cutEntries (n : Nat) : List (Value × Value) → List (Value × Value)
  | [] => []
  | (k, v) :: rest =>
    if n = 0 then [] else (k, cut n v) :: cutEntries (n - (leavesAt [] v).length) rest

end

end Value

open Value

mutual

theorem length_leavesAt (path path' : List String) (v : Value) :
    (leavesAt path v).length = (leavesAt path' v).length := by
  cases v with
  | map es => rw [leavesAt, leavesAt, length_leavesOf path path' es]
  | group cs => rw [leavesAt, leavesAt, length_leavesOf path path' cs]
  | _ => simp [leavesAt]

/-- Where a group stands does not change how many leaves it has. -/
theorem length_leavesOf (path path' : List String) (es : List (Value × Value)) :
    (leavesOf path es).length = (leavesOf path' es).length := by
  match es with
  | [] => simp [leavesOf]
  | (k, v) :: rest =>
    rw [leavesOf, leavesOf, List.length_append, List.length_append,
      length_leavesAt (path ++ [k.plain]) (path' ++ [k.plain]) v, length_leavesOf path path' rest]

end

mutual

theorem leavesAt_cut (path : List String) {n : Nat} (hn : n ≠ 0) (v : Value) :
    leavesAt path (cut n v) = (leavesAt path v).take n := by
  cases v with
  | map es => rw [cut, leavesAt, leavesAt, leavesOf_cutEntries path n es]
  | group cs => rw [cut, leavesAt, leavesAt, leavesOf_cutEntries path n cs]
  | _ => simp [cut, leavesAt, List.take_of_length_le, Nat.one_le_iff_ne_zero.mpr hn]

/-- The leaves of cut entries are the first ones of all. -/
theorem leavesOf_cutEntries (path : List String) (n : Nat) (es : List (Value × Value)) :
    leavesOf path (cutEntries n es) = (leavesOf path es).take n := by
  match es with
  | [] => simp [cutEntries, leavesOf]
  | (k, v) :: rest =>
    rw [cutEntries]
    split
    · next hn => simp [hn, leavesOf]
    · next hn =>
      rw [leavesOf, leavesOf, List.take_append, leavesAt_cut (path ++ [k.plain]) hn v,
        leavesOf_cutEntries path _ rest, length_leavesAt [] (path ++ [k.plain]) v]

end

/-- Whether no key without a text stands in front of the first leaves of a tree. -/
def ReadableTo (es : List (Value × Value)) (n : Nat) : Prop := ∀ m, textlessAmong? es = some m → n ≤ m

section Readable

variable {es : List (Value × Value)} {n : Nat}

theorem ReadableTo.of_le {m : Nat} (h : ReadableTo es n) (hle : m ≤ n) : ReadableTo es m :=
  fun k hk => Nat.le_trans hle (h k hk)

theorem readableLeaves_getElem? {leaf : Leaf} : (readableLeaves es)[n]? = some leaf ↔
    (leavesOf [] es)[n]? = some leaf ∧ ReadableTo es (n + 1) := by
  unfold readableLeaves
  cases h : textlessAmong? es with
  | none => simp [ReadableTo, h]
  | some m =>
    have hread : ReadableTo es (n + 1) ↔ n < m :=
      ⟨fun hread => hread m h, fun hlt k hk => Option.some.inj (h.symm.trans hk) ▸ hlt⟩
    simp [hread, List.getElem?_take, and_comm]

theorem readableLeaves_take (h : ReadableTo es n) :
    (readableLeaves es).take n = (leavesOf [] es).take n := by
  unfold readableLeaves
  split
  · rfl
  · next m hm => rw [List.take_take, Nat.min_eq_left (h m hm)]

end Readable

mutual

theorem textlessIn?_le (v : Value) {m : Nat} (h : textlessIn? v = some m) :
    m ≤ (leavesAt [] v).length := by
  cases v with
  | map es => exact textlessAmong?_le [] es h
  | group cs => exact textlessAmong?_le [] cs h
  | _ => cases h

/-- The leaves in front of a key without a text are some of all. -/
theorem textlessAmong?_le (path : List String) (es : List (Value × Value)) {m : Nat}
    (h : textlessAmong? es = some m) : m ≤ (leavesOf path es).length := by
  match es with
  | (k, v) :: rest =>
    rw [leavesOf, List.length_append, length_leavesAt _ [] v]
    rw [textlessAmong?] at h
    split at h
    · split at h
      · next hv =>
        cases h
        exact Nat.le_add_right_of_le (textlessIn?_le v hv)
      · obtain ⟨m', hm', rfl⟩ := Option.map_eq_some_iff.mp h
        exact Nat.add_le_add_left (textlessAmong?_le path rest hm') _
    · cases h
      exact Nat.zero_le _

end

mutual

theorem textlessIn?_cut (v : Value) {n : Nat} (h : ∀ m, textlessIn? v = some m → n ≤ m) :
    textlessIn? (cut n v) = none := by
  cases v with
  | map es => exact textlessAmong?_cutEntries es h
  | group cs => exact textlessAmong?_cutEntries cs h
  | _ => rfl

/-- Cut down to leaves in front of the first key without a text, entries have none such. -/
theorem textlessAmong?_cutEntries (es : List (Value × Value)) {n : Nat} (h : ReadableTo es n) :
    textlessAmong? (cutEntries n es) = none := by
  match es with
  | [] => rfl
  | (k, v) :: rest =>
    rw [cutEntries]
    split
    · rfl
    · next hn =>
      have hfirst : k.hasText = true := by
        by_contra hnot
        exact hn (Nat.le_zero.mp (h 0 (by rw [textlessAmong?, if_neg hnot])))
      rw [ReadableTo, textlessAmong?, if_pos hfirst] at h
      rw [textlessAmong?, if_pos hfirst]
      cases hv : textlessIn? v with
      | some m =>
        -- The cut ends within the value, so nothing of the rest is left.
        rw [hv] at h
        have hm : n ≤ m := h m rfl
        rw [textlessIn?_cut v fun m' hm' => Option.some.inj (hv.symm.trans hm') ▸ hm,
          Nat.sub_eq_zero_of_le (Nat.le_trans hm (textlessIn?_le v hv))]
        cases rest <;> rfl
      | none =>
        rw [hv] at h
        have hrest : ReadableTo rest (n - (leavesAt [] v).length) := fun m hm =>
          Nat.sub_le_of_le_add (Nat.add_comm _ m ▸ h _ (by rw [hm]; rfl))
        rw [textlessIn?_cut v fun m hm => by simp [hv] at hm,
          textlessAmong?_cutEntries rest hrest]
        rfl

end

namespace VariableSet

theorem resolveReference_eq_error {s : VariableSet} {dotted referrer : String}
    {failure : Failure} :
    s.resolveReference dotted referrer = .error failure ↔
      (∀ x, s.resolveReference dotted referrer ≠ .ok x) ∧
        failure = .of (.undefinedReference (s.nameAt (splitPath dotted)) s.mode (some referrer)) := by
  have hcases : (∃ x, s.resolveReference dotted referrer = .ok x) ∨
      s.resolveReference dotted referrer =
        .error (.of (.undefinedReference (s.nameAt (splitPath dotted)) s.mode (some referrer))) := by
    unfold resolveReference
    dsimp only
    split
    · exact Or.inl ⟨_, rfl⟩
    · split
      · exact Or.inr rfl
      · split
        · exact Or.inl ⟨_, rfl⟩
        · exact Or.inr rfl
  rcases hcases with ⟨x, hx⟩ | herror
  · simp [hx]
  · simp [herror, eq_comm]

/-- The value of a leaf fails to resolve only if it is a reference without a value. -/
theorem resolve_eq_error {s : VariableSet} {v : Value} {referrer : String} {failure : Failure}
    (hv : v.IsLeaf) :
    s.resolve v referrer = .error failure ↔
      ∃ dotted, v = .ref dotted ∧ s.resolveReference dotted referrer = .error failure := by
  cases v with
  | map es => exact absurd rfl (hv.1 es)
  | group cs => exact absurd rfl (hv.2 cs)
  | ref p => simp [resolve, Token.of]
  | _ => simp [resolve, Token.of]

namespace Flattening

variable {f : Flattening} {leaf : Leaf} {failure : Failure} {ls : List Leaf}

theorem insertAll_cons_of_accepted (h : (f.insert leaf).2 = none) :
    f.insertAll (leaf :: ls) = (f.insert leaf).1.insertAll ls := by
  have hpair : f.insert leaf = ((f.insert leaf).1, none) := Prod.ext rfl h
  rw [insertAll, hpair]

theorem insertAll_cons_of_refused (h : (f.insert leaf).2 = some failure) :
    f.insertAll (leaf :: ls) = f.insert leaf := by
  have hpair : f.insert leaf = ((f.insert leaf).1, some failure) := Prod.ext rfl h
  rw [insertAll, hpair]

theorem insertAll_append_of_accepted {ls' : List Leaf} (h : (f.insertAll ls).2 = none) :
    f.insertAll (ls ++ ls') = (f.insertAll ls).1.insertAll ls' := by
  induction ls generalizing f with
  | nil => rfl
  | cons l rest ih =>
    cases hl : (f.insert l).2 with
    | some failure =>
      rw [insertAll_cons_of_refused hl, hl] at h
      cases h
    | none =>
      rw [insertAll_cons_of_accepted hl] at h ⊢
      rw [List.cons_append, insertAll_cons_of_accepted hl, ih h]

theorem insertAll_of_append {ls' : List Leaf} (h : (f.insertAll (ls ++ ls')).2 = none) :
    (f.insertAll ls).2 = none := by
  induction ls generalizing f with
  | nil => rfl
  | cons l rest ih =>
    rw [List.cons_append] at h
    cases hl : (f.insert l).2 with
    | some failure =>
      rw [insertAll_cons_of_refused hl, hl] at h
      cases h
    | none =>
      rw [insertAll_cons_of_accepted hl] at h ⊢
      exact ih h

/-- A leaf is refused if its name has been declared in a strict set, or else if it does not
resolve. -/
theorem insert_eq_some :
    (f.insert leaf).2 = some failure ↔
      (f.set.nameAt leaf.1 ∈ f.seen ∧ f.set.strict = true ∧
        failure = .of (.duplicateVariable (f.set.nameAt leaf.1) f.set.mode)) ∨
      (¬ (f.set.nameAt leaf.1 ∈ f.seen ∧ f.set.strict = true) ∧
        f.set.resolve leaf.2 (f.set.nameAt leaf.1) = .error failure) := by
  obtain ⟨hseen, hstrict, he⟩ | ⟨hnew, ⟨failure', hr, he⟩ | ⟨value, hr, he⟩⟩ := f.insert_cases leaf
  · simp [he, hseen, hstrict, eq_comm]
  · rw [he, hr]
    simp only [Option.some.injEq, Except.error.injEq]
    exact ⟨fun hf => Or.inr ⟨hnew, hf⟩,
      fun h => h.elim (fun hrepeated => absurd ⟨hrepeated.1, hrepeated.2.1⟩ hnew) And.right⟩
  · rw [he, hr]
    simp only [reduceCtorEq, and_false, or_false, false_iff]
    exact fun hrepeated => hnew ⟨hrepeated.1, hrepeated.2.1⟩

/-- A leaf that is refused leaves the set as it was. -/
theorem insert_set_of_refused (h : (f.insert leaf).2 = some failure) :
    (f.insert leaf).1.set = f.set := by
  obtain ⟨-, -, he⟩ | ⟨-, ⟨failure', -, he⟩ | ⟨value, -, he⟩⟩ := f.insert_cases leaf
  · rw [he]
  · rw [he]
  · simp [he] at h

theorem insert_of_accepted (h : (f.insert leaf).2 = none) :
    (∃ value, (f.insert leaf).1.set = f.set.store leaf.1 value) ∧
      (f.insert leaf).1.seen = f.set.nameAt leaf.1 :: f.seen := by
  obtain ⟨-, -, he⟩ | ⟨-, ⟨failure, -, he⟩ | ⟨value, -, he⟩⟩ := f.insert_cases leaf
  · simp [he] at h
  · simp [he] at h
  · rw [he]
    exact ⟨⟨value, rfl⟩, rfl⟩

/-- Leaves that are all inserted change neither the names that paths have nor whether a name may be
repeated, and their own names have then been declared. -/
theorem insertAll_of_accepted (h : (f.insertAll ls).2 = none) :
    (f.insertAll ls).1.set.mode = f.set.mode ∧
      (f.insertAll ls).1.set.typePrefix = f.set.typePrefix ∧
      (f.insertAll ls).1.set.strict = f.set.strict ∧
      ∀ name, name ∈ (f.insertAll ls).1.seen ↔
        name ∈ f.seen ∨ ∃ l ∈ ls, f.set.nameAt l.1 = name := by
  induction ls generalizing f with
  | nil => simp [insertAll]
  | cons l rest ih =>
    cases hl : (f.insert l).2 with
    | some failure =>
      rw [insertAll_cons_of_refused hl, hl] at h
      cases h
    | none =>
      rw [insertAll_cons_of_accepted hl] at h ⊢
      obtain ⟨⟨value, hset⟩, hseen⟩ := insert_of_accepted hl
      obtain ⟨hmode, htype, hstrict, hnames⟩ := ih h
      have hname : ∀ path, (f.insert l).1.set.nameAt path = f.set.nameAt path := by
        intro path
        rw [hset]
        rfl
      rw [hset] at hmode htype hstrict
      refine ⟨hmode, htype, hstrict, fun name => ?_⟩
      rw [hnames, hseen]
      simp only [hname, List.mem_cons, exists_eq_or_imp]
      grind

/-- A row of leaves is inserted, or there is a first leaf that is refused after those before it have
been inserted; the set is then the one after these. -/
theorem insertAll_cases (f : Flattening) (ls : List Leaf) :
    (f.insertAll ls).2 = none ∨
      ∃ n leaf failure, ls[n]? = some leaf ∧ (f.insertAll (ls.take n)).2 = none ∧
        ((f.insertAll (ls.take n)).1.insert leaf).2 = some failure ∧
        (f.insertAll ls).2 = some failure ∧
        (f.insertAll ls).1.set = (f.insertAll (ls.take n)).1.set := by
  induction ls generalizing f with
  | nil => exact Or.inl rfl
  | cons l rest ih =>
    cases hl : (f.insert l).2 with
    | some failure =>
      refine Or.inr ⟨0, l, failure, rfl, rfl, hl, ?_⟩
      rw [insertAll_cons_of_refused hl]
      exact ⟨hl, insert_set_of_refused hl⟩
    | none =>
      rw [insertAll_cons_of_accepted hl]
      refine (ih (f.insert l).1).imp_right fun h => ?_
      obtain ⟨n, leaf, failure, hleaf, hbefore, hrefused, hfailure, hset⟩ := h
      refine ⟨n + 1, leaf, failure, by simpa using hleaf, ?_⟩
      rw [List.take_succ_cons, insertAll_cons_of_accepted hl]
      exact ⟨hbefore, hrefused, hfailure, hset⟩

/-- Where all leaves are inserted, so are the first ones and then the next. -/
theorem accepted_of_insertAll {n : Nat} (h : (f.insertAll ls).2 = none) (hleaf : ls[n]? = some leaf) :
    (f.insertAll (ls.take n)).2 = none ∧ ((f.insertAll (ls.take n)).1.insert leaf).2 = none := by
  obtain ⟨hn, rfl⟩ := List.getElem?_eq_some_iff.mp hleaf
  have hsplit : ls.take n ++ ls[n] :: ls.drop (n + 1) = ls := by simp
  rw [← hsplit] at h
  have hbefore := insertAll_of_append h
  refine ⟨hbefore, ?_⟩
  rw [insertAll_append_of_accepted hbefore] at h
  cases hl : ((f.insertAll (ls.take n)).1.insert ls[n]).2 with
  | none => rfl
  | some failure =>
    rw [insertAll_cons_of_refused hl, hl] at h
    cases h

end Flattening

open Value

/-- The set after the first leaves of a tree have been added, and nothing behind them. -/
def addFirst (s : VariableSet) (es : List (Value × Value)) (n : Nat) : VariableSet :=
  (s.add (.map (cutEntries n es))).set

/-- The causes for which an addition stops at a leaf of a tree: a strict set does not take a name that
an earlier leaf of the tree has, and otherwise a reference needs a value in the set after the earlier
leaves. -/
inductive StopsAt (s : VariableSet) (es : List (Value × Value)) (n : Nat) : Cause → Prop where
  | repeated {leaf : Leaf} (hleaf : (leavesOf [] es)[n]? = some leaf) (hstrict : s.strict = true)
      (hname : ∃ l ∈ (leavesOf [] es).take n, s.nameAt l.1 = s.nameAt leaf.1) :
      StopsAt s es n (.duplicateVariable (s.nameAt leaf.1) s.mode)
  | unresolved {path : List String} {dotted : String}
      (hleaf : (leavesOf [] es)[n]? = some (path, .ref dotted))
      (hnew : ¬ (s.strict = true ∧ ∃ l ∈ (leavesOf [] es).take n, s.nameAt l.1 = s.nameAt path))
      (hvalue : ∀ x, (s.addFirst es n).resolveReference dotted (s.nameAt path) ≠ .ok x) :
      StopsAt s es n
        (.undefinedReference (s.nameAt (splitPath dotted)) s.mode (some (s.nameAt path)))

/-- What ends an addition once the first leaves of a tree are in the set: the next leaf stops it, or
a key without a text stands there. -/
inductive EndsAt (s : VariableSet) (es : List (Value × Value)) (n : Nat) : Failure → Prop where
  | leaf {cause : Cause} (hstop : StopsAt s es n cause) (hread : ReadableTo es (n + 1)) :
      EndsAt s es n (.of cause)
  | key (hkey : textlessAmong? es = some n) : EndsAt s es n (.value .unwritableInteger)

/-- What ends an addition first. -/
def FirstEnd (s : VariableSet) (es : List (Value × Value)) (n : Nat) (failure : Failure) : Prop :=
  EndsAt s es n failure ∧ ∀ m < n, ∀ f, ¬ EndsAt s es m f

theorem StopsAt.exists_leaf {s : VariableSet} {es : List (Value × Value)} {n : Nat} {cause : Cause}
    (h : StopsAt s es n cause) : ∃ leaf, (leavesOf [] es)[n]? = some leaf := by
  cases h with
  | repeated hleaf => exact ⟨_, hleaf⟩
  | unresolved hleaf => exact ⟨_, hleaf⟩

section Ends

variable {s : VariableSet} {es : List (Value × Value)} {n n' : Nat} {cause cause' : Cause}
  {failure failure' : Failure}

theorem StopsAt.unique (h : StopsAt s es n cause) (h' : StopsAt s es n cause') :
    cause' = cause := by
  cases h with
  | repeated hleaf hstrict hname =>
    cases h' with
    | repeated hleaf' =>
      obtain rfl := Option.some.inj (hleaf.symm.trans hleaf')
      rfl
    | unresolved hleaf' hnew =>
      obtain rfl := Option.some.inj (hleaf.symm.trans hleaf')
      exact absurd ⟨hstrict, hname⟩ hnew
  | unresolved hleaf hnew =>
    cases h' with
    | repeated hleaf' hstrict hname =>
      obtain rfl := Option.some.inj (hleaf.symm.trans hleaf')
      exact absurd ⟨hstrict, hname⟩ hnew
    | unresolved hleaf' =>
      cases hleaf.symm.trans hleaf'
      rfl

theorem EndsAt.unique (h : EndsAt s es n failure) (h' : EndsAt s es n failure') :
    failure' = failure := by
  cases h with
  | leaf hstop hread =>
    cases h' with
    | leaf hstop' => rw [hstop.unique hstop']
    | key hkey => exact absurd (hread n hkey) (Nat.not_succ_le_self n)
  | key hkey =>
    cases h' with
    | leaf _ hread => exact absurd (hread n hkey) (Nat.not_succ_le_self n)
    | key => rfl

theorem FirstEnd.unique (h : FirstEnd s es n failure) (h' : FirstEnd s es n' failure') :
    n' = n ∧ failure' = failure := by
  rcases Nat.lt_trichotomy n' n with hlt | rfl | hgt
  · exact absurd h'.1 (h.2 n' hlt failure')
  · exact ⟨rfl, h.1.unique h'.1⟩
  · exact absurd h.1 (h'.2 n hgt failure)

end Ends

section Adding

variable {s : VariableSet} {es : List (Value × Value)} (hopen : s.finalized = false)
include hopen

theorem add_map_eq (es : List (Value × Value)) :
    (s.add (.map es)).set = (Flattening.insertAll ⟨s, [], []⟩ (readableLeaves es)).1.set ∧
      (s.add (.map es)).failure = (Flattening.insertTree ⟨s, [], []⟩ es).2 := by
  simp [add, hopen]

theorem addFirst_eq {n : Nat} (hread : ReadableTo es n) :
    s.addFirst es n =
      (Flattening.insertAll ⟨s, [], []⟩ ((leavesOf [] es).take n)).1.set := by
  rw [addFirst, (add_map_eq hopen _).1, readableLeaves_eq (textlessAmong?_cutEntries es hread),
    leavesOf_cutEntries]

/-- The first leaves of a tree are added exactly if they are inserted. -/
theorem add_cutEntries_failure {n : Nat} (hread : ReadableTo es n) :
    (s.add (.map (cutEntries n es))).failure = none ↔
      (Flattening.insertAll ⟨s, [], []⟩ ((leavesOf [] es).take n)).2 = none := by
  rw [(add_map_eq hopen _).2, Flattening.insertTree_eq_none, leavesOf_cutEntries,
    and_iff_right (textlessAmong?_cutEntries es hread)]

/-- Once the leaves before it have been inserted, a leaf is refused for the causes for which the
addition stops there. -/
theorem refused_iff_stopsAt {n : Nat} {leaf : Leaf} {failure : Failure} (hread : ReadableTo es n)
    (hleaf : (leavesOf [] es)[n]? = some leaf)
    (hbefore : (Flattening.insertAll ⟨s, [], []⟩ ((leavesOf [] es).take n)).2 = none) :
    ((Flattening.insertAll ⟨s, [], []⟩ ((leavesOf [] es).take n)).1.insert leaf).2 =
        some failure ↔
      ∃ cause, StopsAt s es n cause ∧ failure = .of cause := by
  obtain ⟨hmode, htype, hstrict, hseen⟩ := Flattening.insertAll_of_accepted hbefore
  have hset := addFirst_eq hopen hread
  generalize (Flattening.insertAll ⟨s, [], []⟩ ((leavesOf [] es).take n)).1 = f at *
  have hname : ∀ path, f.set.nameAt path = s.nameAt path := fun path => by
    rw [nameAt, htype, nameAt]
  have hisLeaf : leaf.2.IsLeaf := leavesOf_isLeaf [] es leaf (List.mem_of_getElem? hleaf)
  have hdeclared : (f.set.nameAt leaf.1 ∈ f.seen ∧ f.set.strict = true) ↔
      s.strict = true ∧ ∃ l ∈ (leavesOf [] es).take n, s.nameAt l.1 = s.nameAt leaf.1 := by
    rw [hname, hstrict, hseen, and_comm]
    simp
  rw [Flattening.insert_eq_some, ← and_assoc, hdeclared, hname, hmode, resolve_eq_error hisLeaf]
  simp only [resolveReference_eq_error, hname, hmode]
  simp only [← hset]
  constructor
  · rintro (⟨⟨hstrict, hrepeated⟩, rfl⟩ | ⟨hnew, dotted, hvalue, hunresolved, rfl⟩)
    · exact ⟨_, .repeated hleaf hstrict hrepeated, rfl⟩
    · obtain ⟨path, v⟩ := leaf
      obtain rfl : v = .ref dotted := hvalue
      exact ⟨_, .unresolved hleaf hnew hunresolved, rfl⟩
  · rintro ⟨cause, hstop, rfl⟩
    cases hstop with
    | repeated hleaf' hstrict hrepeated =>
      obtain rfl := Option.some.inj (hleaf.symm.trans hleaf')
      exact Or.inl ⟨⟨hstrict, hrepeated⟩, rfl⟩
    | @unresolved path dotted hleaf' hnew hunresolved =>
      obtain rfl := Option.some.inj (hleaf.symm.trans hleaf')
      exact Or.inr ⟨hnew, dotted, rfl, hunresolved, rfl⟩

theorem not_stopsAt_of_accepted {n m : Nat} (hread : ReadableTo es m) (hm : m < n)
    (h : (Flattening.insertAll ⟨s, [], []⟩ ((leavesOf [] es).take n)).2 = none) (cause : Cause) :
    ¬ StopsAt s es m cause := by
  intro hstop
  obtain ⟨leaf, hleaf⟩ := hstop.exists_leaf
  have hleaf' : ((leavesOf [] es).take n)[m]? = some leaf := by
    rw [List.getElem?_take_of_lt hm, hleaf]
  obtain ⟨hbefore, haccepted⟩ := Flattening.accepted_of_insertAll h hleaf'
  rw [List.take_take, Nat.min_eq_left (Nat.le_of_lt hm)] at hbefore haccepted
  have hrefused := (refused_iff_stopsAt hopen hread hleaf hbefore).mpr ⟨cause, hstop, rfl⟩
  rw [haccepted] at hrefused
  cases hrefused

/-- Where the first leaves are inserted, nothing ends the addition in front of the last of them. -/
theorem not_endsAt_of_accepted {n m : Nat} (hread : ReadableTo es n) (hm : m < n)
    (h : (Flattening.insertAll ⟨s, [], []⟩ ((leavesOf [] es).take n)).2 = none)
    (failure : Failure) : ¬ EndsAt s es m failure := by
  intro hends
  cases hends with
  | leaf hstop =>
    exact not_stopsAt_of_accepted hopen (hread.of_le (Nat.le_of_lt hm)) hm h _ hstop
  | key hkey => exact absurd (hread m hkey) (Nat.not_le.mpr hm)

/-- What ends the addition behind leaves that are inserted is what ends it first. -/
theorem firstEnd_of_accepted {n : Nat} {failure : Failure} (hends : EndsAt s es n failure)
    (hread : ReadableTo es n)
    (h : (Flattening.insertAll ⟨s, [], []⟩ ((leavesOf [] es).take n)).2 = none) :
    FirstEnd s es n failure :=
  ⟨hends, fun _ hm => not_endsAt_of_accepted hopen hread hm h⟩

/-- Nothing ends the addition of a tree whose keys have texts and whose leaves are all inserted. -/
theorem not_endsAt_of_readable {n : Nat} {failure : Failure} (hkeys : textlessAmong? es = none)
    (h : (Flattening.insertAll ⟨s, [], []⟩ (leavesOf [] es)).2 = none) :
    ¬ EndsAt s es n failure := by
  have hread : ReadableTo es n := fun m hm => by simp [hkeys] at hm
  intro hends
  cases hends with
  | leaf hstop =>
    obtain ⟨leaf, hleaf⟩ := hstop.exists_leaf
    have hn := (List.getElem?_eq_some_iff.mp hleaf).1
    exact not_stopsAt_of_accepted hopen hread hn (by rwa [List.take_length]) _ hstop
  | key hkey => simp [hkeys] at hkey

/-- An addition succeeds where nothing ends it. Else it fails for what ends it first, and the set is
the one after the leaves before that. -/
theorem add_map_cases (es : List (Value × Value)) :
    ((s.add (.map es)).failure = none ∧ ∀ n failure, ¬ EndsAt s es n failure) ∨
      ∃ n failure, FirstEnd s es n failure ∧ (s.add (.map es)).failure = some failure ∧
        (s.add (.map (cutEntries n es))).failure = none ∧
        (s.add (.map es)).set = s.addFirst es n := by
  obtain ⟨hset, hfailure⟩ := add_map_eq hopen es
  rw [hset, hfailure]
  rcases Flattening.insertAll_cases ⟨s, [], []⟩ (readableLeaves es) with
    haccepted | ⟨n, leaf, failure, hleaf, hbefore, hrefused, hstopped, hlast⟩
  · rw [Flattening.insertTree_of_accepted haccepted]
    cases hkey : textlessAmong? es with
    | none =>
      rw [readableLeaves_eq hkey] at haccepted
      exact Or.inl ⟨rfl, fun n failure => not_endsAt_of_readable hopen hkey haccepted⟩
    | some n =>
      have hread : ReadableTo es n := fun m hm => by simp_all
      have hbefore : (Flattening.insertAll ⟨s, [], []⟩ ((leavesOf [] es).take n)).2 = none := by
        rwa [readableLeaves, hkey] at haccepted
      refine Or.inr ⟨n, _, firstEnd_of_accepted hopen (.key hkey) hread hbefore, rfl, ?_, ?_⟩
      · exact (add_cutEntries_failure hopen hread).mpr hbefore
      · rw [addFirst_eq hopen hread, readableLeaves, hkey]
  · rw [Flattening.insertTree_of_refused hstopped]
    obtain ⟨hleaf, hnext⟩ := readableLeaves_getElem?.mp hleaf
    have hread : ReadableTo es n := hnext.of_le (Nat.le_succ n)
    rw [readableLeaves_take hread] at hbefore hrefused hlast
    obtain ⟨cause, hstop, rfl⟩ := (refused_iff_stopsAt hopen hread hleaf hbefore).mp hrefused
    refine Or.inr ⟨n, _, firstEnd_of_accepted hopen (.leaf hstop hnext) hread hbefore, rfl, ?_, ?_⟩
    · exact (add_cutEntries_failure hopen hread).mpr hbefore
    · rw [addFirst_eq hopen hread, hlast]

end Adding

/-- An addition to an open set fails exactly if a leaf or a key without a text ends it, for what ends
it first, and then leaves the set that the tree gives when it is cut down to the leaves before that;
nothing ends this addition. Where all keys have texts, only leaves end additions. No value of a leaf
is unsuitable in whatever set it is resolved. -/
theorem add_stops_at_first (s : VariableSet) (hopen : s.finalized = false)
    (es : List (Value × Value)) :
    ((s.add (.map es)).failure = none ↔ ∀ n failure, ¬ EndsAt s es n failure) ∧
    (∀ failure, (s.add (.map es)).failure = some failure ↔ ∃ n, FirstEnd s es n failure) ∧
    (∀ n failure, FirstEnd s es n failure →
      (s.add (.map (cutEntries n es))).failure = none ∧
        (s.add (.map es)).set = (s.add (.map (cutEntries n es))).set) ∧
    (∀ n, leavesOf [] (cutEntries n es) = (leavesOf [] es).take n) ∧
    (textlessAmong? es = none → ∀ n failure, EndsAt s es n failure ↔
      ∃ cause, StopsAt s es n cause ∧ failure = .of cause) ∧
    ∀ leaf ∈ leavesOf [] es, ∀ (t : VariableSet) (referrer kind : String),
      t.resolve leaf.2 referrer ≠ .error (.kind (.unsuitable kind)) := by
  refine ⟨?_, ?_, ?_, fun n => leavesOf_cutEntries [] n es, fun hkeys n failure => ?_,
    fun leaf hleaf t referrer kind h => ?_⟩
  · rcases add_map_cases hopen es with ⟨hnone, hends⟩ | ⟨n, failure, hfirst, hsome, -⟩
    · simpa [hnone] using hends
    · simpa [hsome] using ⟨n, failure, hfirst.1⟩
  · intro failure
    rcases add_map_cases hopen es with ⟨hnone, hends⟩ | ⟨n, failure', hfirst, hsome, -⟩
    · rw [hnone]
      exact ⟨nofun, fun ⟨n, hfirst⟩ => absurd hfirst.1 (hends n failure)⟩
    · rw [hsome, Option.some.injEq]
      exact ⟨fun h => ⟨n, h ▸ hfirst⟩, fun ⟨n', hfirst'⟩ => (hfirst'.unique hfirst).2⟩
  · intro n failure hfirst
    rcases add_map_cases hopen es with
      ⟨-, hends⟩ | ⟨n', failure', hfirst', -, haccepted, hset⟩
    · exact absurd hfirst.1 (hends n failure)
    · obtain ⟨rfl, -⟩ := hfirst.unique hfirst'
      exact ⟨haccepted, hset⟩
  · constructor
    · rintro (⟨hstop, -⟩ | hkey)
      · exact ⟨_, hstop, rfl⟩
      · simp [hkeys] at hkey
    · rintro ⟨cause, hstop, rfl⟩
      exact .leaf hstop fun m hm => by simp [hkeys] at hm
  · obtain ⟨dotted, -, herror⟩ := (resolve_eq_error (leavesOf_isLeaf [] es leaf hleaf)).mp h
    have hfailure := (resolveReference_eq_error.mp herror).2
    simp [Failure.of, Failure.kind] at hfailure

/-- A tree whose second leaf refers to nothing. Its first leaf turns an earlier leaf into a group, and
its last one would have dropped an earlier group. -/
def halfBroken : List (Value × Value) :=
  [(.text "a", .map [(.text "x", .int 4)]), (.text "d", .ref "a.y"), (.text "b", .int 5)]

/-- After an addition that failed before, too. -/
theorem add_stops_at_first_halfBroken :
    let s := (empty "light" "colors" true).run
      [.add (.map [(.text "a", .int 1), (.text "b", .map [(.text "c", .ref "a")])]),
        .add (.map [(.text "e", .int 3), (.text "f", .ref "missing")])]
    s.finalized = false ∧ s.names = ["colors-a", "colors-b.c", "colors-e"] ∧
      (s.add (.map halfBroken)).failure =
        some (.of (.undefinedReference "colors-a.y" "light" (some "colors-d"))) ∧
      (s.add (.map halfBroken)).set.names = ["colors-b.c", "colors-e", "colors-a.x"] ∧
      ∃ n failure, FirstEnd s halfBroken n failure ∧
        (s.add (.map halfBroken)).set = (s.add (.map (cutEntries n halfBroken))).set := by
  intro s
  have hfailure : (s.add (.map halfBroken)).failure =
      some (.of (.undefinedReference "colors-a.y" "light" (some "colors-d"))) := by rfl
  obtain ⟨-, hfirst, hset, -⟩ := add_stops_at_first s rfl halfBroken
  obtain ⟨n, hends⟩ := (hfirst _).mp hfailure
  exact ⟨rfl, by rfl, hfailure, by rfl, n, _, hends, (hset n _ hends).2⟩

/-- A single leaf that is no reference stops no addition. -/
theorem not_stopsAt_single (s : VariableSet) (k : Value) (i : Int) (n : Nat) (cause : Cause) :
    ¬ StopsAt s [(k, .int i)] n cause := by
  have hleaves : leavesOf [] [(k, .int i)] = [([k.plain], .int i)] := by simp [leavesOf, leavesAt]
  intro hstop
  cases hstop with
  | repeated hleaf _ hname =>
    rw [hleaves] at hleaf hname
    obtain rfl : n = 0 := Nat.lt_one_iff.mp (List.getElem?_eq_some_iff.mp hleaf).1
    simp at hname
  | unresolved hleaf =>
    rw [hleaves] at hleaf
    obtain ⟨hn, hvalue⟩ := List.getElem?_eq_some_iff.mp hleaf
    simp at hvalue

/-- A number of more digits than can be written, as the key of a leaf. -/
def overlongKey : List (Value × Value) := [(.int (Int.ofNat (Nat.pow 16 3600)), .int 2)]

/-- No leaf stops its addition, and yet it fails. -/
theorem add_overlongKey_fails :
    let s := empty "light" "colors" true
    s.finalized = false ∧ (∀ n cause, ¬ StopsAt s overlongKey n cause) ∧
      (s.add (.map overlongKey)).failure = some (.value .unwritableInteger) ∧
      (s.add (.map overlongKey)).set.names = [] := by
  intro s
  have htextless : textlessAmong? overlongKey = some 0 := by decide +kernel
  have hreadable : readableLeaves overlongKey = [] := by
    rw [readableLeaves, htextless]
    rfl
  obtain ⟨hset, hfailure⟩ := add_map_eq (s := s) rfl overlongKey
  rw [hreadable] at hset
  refine ⟨rfl, fun n cause => not_stopsAt_single s _ 2 n cause, ?_, by rw [hset]; rfl⟩
  rw [hfailure, Flattening.insertTree_of_accepted (by rw [hreadable]; rfl), htextless]
  rfl

end VariableSet

end DesignTokens
