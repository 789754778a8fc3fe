import DesignTokens.Evaluation
import DesignTokens.Proofs.Entries
import DesignTokens.Proofs.Walking
import DesignTokens.Template.Standard

/-! Following references. Where nothing is computed, evaluating a reference looks up what it names,
and goes on as long as that is a reference, too. The links are counted, and a chain may have no more
than a fixed number of them. So a chain that ends in time gives its end, and one that comes back to
itself is always given up. -/
namespace DesignTokens

/-- A value from which no walk leads to anything computed. -/
def Inert (v : Value) : Prop := ∀ segments x, Walk v segments x → ∀ d, Token.of x ≠ .deferred d

namespace Inert

theorem map {es : List (Value × Value)} (h : ∀ e ∈ es, Inert e.2) : Inert (.map es) := by
  rintro _ x (_ | ⟨hstep, hrest⟩)
  · simp [Token.of]
  · cases hstep with
    | entry hentry => exact h _ (Value.mem_of_entry?_eq_some hentry) _ _ hrest
    | item hrow => simp at hrow

theorem row {v : Value} {xs : List Value} (hv : v = .list xs ∨ v = .tuple xs)
    (h : ∀ x ∈ xs, Inert x) : Inert v := by
  rintro _ x (_ | ⟨hstep, hrest⟩)
  · rcases hv with rfl | rfl <;> simp [Token.of]
  · cases hstep with
    | entry => simp at hv
    | @item _ _ ys _ _ hrow _ hitem =>
      obtain rfl : xs = ys := by rcases hv with rfl | rfl <;> simpa using hrow
      obtain ⟨n, hn, -⟩ := hitem
      exact h _ (List.mem_of_getElem? hn) _ _ hrest

/-- A value without parts that a segment could lead to. -/
theorem leaf {v : Value} (hv : ∀ d, Token.of v ≠ .deferred d) (hmap : ∀ es, v ≠ .map es)
    (hrow : ∀ xs, ¬ (v = .list xs ∨ v = .tuple xs)) : Inert v := by
  rintro _ x (_ | ⟨hstep, -⟩)
  · exact hv
  · cases hstep with
    | entry => exact absurd rfl (hmap _)
    | item h => exact absurd h (hrow _)

theorem text (s : String) : Inert (.text s) := .leaf (by simp [Token.of]) (by simp) (by simp)

theorem ref (path : String) : Inert (.ref path) := .leaf (by simp [Token.of]) (by simp) (by simp)

end Inert

/-- As many look-ups lead from one value to another, each from a reference to what it names. -/
inductive Follows (theme : Value) : Nat → Value → Value → Prop where
  | here (v : Value) : Follows theme 0 v v
  | next {path : String} {x v : Value} {n : Nat} (h : lookup theme path = .ok x)
      (hrest : Follows theme n x v) : Follows theme (n + 1) (.ref path) v

/-- The end of a chain, and what evaluation comes to there. -/
inductive Ends (theme : Value) : Value → Except Failure Value → Prop where
  | literal {v x : Value} (h : Token.of v = .literal x) : Ends theme v (.ok x)
  | group {v : Value} {cs : List (Value × Value)} (h : Token.of v = .group cs) :
      Ends theme v (.error (.render .group))
  | missing {path : String} {failure : Failure} (h : lookup theme path = .error failure) :
      Ends theme (.ref path) (.error failure)

section Chains

variable {theme v w x : Value} {path : String} {m n depth : Nat}

theorem Follows.trans (h : Follows theme m v x) (h' : Follows theme n x w) :
    Follows theme (m + n) v w := by
  induction h with
  | here => simpa using h'
  | @next _ _ _ m hlookup _ ih =>
    rw [show m + 1 + n = m + n + 1 by omega]
    exact .next hlookup (ih h')

/-- A chain passes a value after each number of its look-ups. -/
theorem Follows.exists_of_le (h : Follows theme n v w) (hm : m ≤ n) : ∃ x, Follows theme m v x := by
  induction h generalizing m with
  | here v =>
    obtain rfl : m = 0 := by omega
    exact ⟨v, .here v⟩
  | next hlookup _ ih =>
    cases m with
    | zero => exact ⟨_, .here _⟩
    | succ m =>
      obtain ⟨x, hx⟩ := ih (Nat.le_of_succ_le_succ hm)
      exact ⟨x, .next hlookup hx⟩

/-- A chain that comes back to where it starts can be gone round any number of times. -/
theorem Follows.around (h : Follows theme n v v) (m : Nat) : Follows theme (m * n) v v := by
  induction m with
  | zero => simpa using Follows.here v
  | succ m ih => simpa [Nat.succ_mul] using ih.trans h

theorem Follows.evaluateFrom_eq [Platform] (h : Follows theme n v w)
    (hdepth : depth + n ≤ maxDepth + 1) (fuel : Nat) :
    evaluateFrom theme depth v (fuel + n) = evaluateFrom theme (depth + n) w fuel := by
  induction h generalizing depth with
  | here => rfl
  | @next path x w n hlookup _ ih =>
    rw [show fuel + (n + 1) = fuel + n + 1 by omega, evaluateFrom, if_neg (by omega)]
    simp only [Token.of, hlookup, ok_bind]
    rw [ih (by omega), show depth + 1 + n = depth + (n + 1) by omega]

theorem Ends.evaluateFrom_eq [Platform] {outcome : Except Failure Value} (h : Ends theme v outcome)
    (hdepth : depth ≤ maxDepth) (fuel : Nat) :
    evaluateFrom theme depth v (fuel + 1) = outcome := by
  rw [evaluateFrom, if_neg (by omega)]
  cases h with
  | literal h => simp [h]
  | group h => simp [h]
  | missing h => simp [Token.of, h]

theorem evaluateFrom_tooDeep [Platform] (hdepth : maxDepth < depth) (fuel : Nat) :
    evaluateFrom theme depth v (fuel + 1) = .error (.render .tooDeep) := by
  rw [evaluateFrom, if_pos hdepth]

/-- A chain on which nothing is computed goes on for a number of look-ups, or ends before. -/
theorem follows_or_ends (hinert : Inert theme) (n : Nat) (hv : ∀ d, Token.of v ≠ .deferred d) :
    (∃ w, Follows theme n v w) ∨
      ∃ m w outcome, m < n ∧ Follows theme m v w ∧ Ends theme w outcome := by
  induction n generalizing v with
  | zero => exact Or.inl ⟨v, .here v⟩
  | succ n ih =>
    have hends {outcome : Except Failure Value} (h : Ends theme v outcome) :
        ∃ m w outcome, m < n + 1 ∧ Follows theme m v w ∧ Ends theme w outcome :=
      ⟨0, v, outcome, Nat.succ_pos n, .here v, h⟩
    cases htoken : Token.of v with
    | literal x => exact Or.inr (hends (.literal htoken))
    | deferred d => exact absurd htoken (hv d)
    | group cs => exact Or.inr (hends (.group htoken))
    | reference path =>
      obtain rfl : v = .ref path := by cases v <;> simp_all [Token.of]
      cases hlookup : lookup theme path with
      | error failure => exact Or.inr (hends (.missing hlookup))
      | ok x =>
        rcases ih (hinert _ _ (lookup_eq_ok.mp hlookup)) with
          ⟨w, hw⟩ | ⟨m, w, outcome, hm, hw, houtcome⟩
        · exact Or.inl ⟨w, .next hlookup hw⟩
        · exact Or.inr ⟨m + 1, w, outcome, Nat.succ_lt_succ hm, .next hlookup hw, houtcome⟩

end Chains

section Evaluation

variable [Platform] {theme v w : Value} {path : String} {n fuel : Nat}

/-- What the end of a chain comes to is the value of the reference it starts from, if it is reached
in time. -/
theorem evaluateFrom_of_ends {outcome : Except Failure Value} (h : Follows theme n v w)
    (hends : Ends theme w outcome) (hn : n ≤ maxDepth) (hfuel : n < fuel) :
    evaluateFrom theme 0 v fuel = outcome := by
  obtain ⟨rest, rfl⟩ : ∃ rest, fuel = rest + 1 + n := ⟨fuel - n - 1, by omega⟩
  rw [h.evaluateFrom_eq (by omega), hends.evaluateFrom_eq (by omega)]

theorem evaluateFrom_of_follows (h : Follows theme (maxDepth + 1) v w)
    (hfuel : maxDepth + 1 < fuel) : evaluateFrom theme 0 v fuel = .error (.render .tooDeep) := by
  obtain ⟨rest, rfl⟩ : ∃ rest, fuel = rest + 1 + (maxDepth + 1) :=
    ⟨fuel - (maxDepth + 1) - 1, by omega⟩
  rw [h.evaluateFrom_eq (by omega), evaluateFrom_tooDeep (by omega)]

end Evaluation

/-- In a theme where nothing is computed a reference has a value exactly if a chain of at most 64
look-ups leads from it, through references, to a literal, which then is the value. It fails exactly as
a look-up on the chain does, at a group that the chain ends in, or as too deep if the chain has more
than 64 links; so it does wherever the chain leads into a cycle. In no case is it evaluated to more
than 66 levels, whatever bounds the nesting. -/
theorem evaluate_follows [Platform] {theme : Value} (hinert : Inert theme) (path : String) :
    (∀ x, evaluate theme (.ref path) = .ok x ↔
      ∃ k v, 1 ≤ k ∧ k ≤ 64 ∧ Follows theme k (.ref path) v ∧ Token.of v = .literal x) ∧
    (∀ failure, evaluate theme (.ref path) = .error failure ↔
      (∃ k last, k ≤ 64 ∧ Follows theme k (.ref path) (.ref last) ∧
        lookup theme last = .error failure) ∨
      (∃ k v cs, 1 ≤ k ∧ k ≤ 64 ∧ Follows theme k (.ref path) v ∧ Token.of v = .group cs ∧
        failure = .render .group) ∨
      (∃ v, Follows theme 65 (.ref path) v ∧ failure = .render .tooDeep)) ∧
    (∀ k n again, Follows theme k (.ref path) (.ref again) → 1 ≤ n →
      Follows theme n (.ref again) (.ref again) →
      evaluate theme (.ref path) = .error (.render .tooDeep)) ∧
    (∀ fuel, 66 ≤ fuel → evaluateFrom theme 0 (.ref path) fuel = evaluate theme (.ref path)) := by
  have hends {k : Nat} {v : Value} {outcome : Except Failure Value} (hk : k ≤ 64)
      (h : Follows theme k (.ref path) v) (h' : Ends theme v outcome) :
      evaluate theme (.ref path) = outcome :=
    evaluateFrom_of_ends h h' hk (by simp only [maxNesting]; omega)
  have hdeep {v : Value} (h : Follows theme 65 (.ref path) v) :
      evaluate theme (.ref path) = .error (.render .tooDeep) :=
    evaluateFrom_of_follows h (by decide)
  have hcases := follows_or_ends hinert 65 (v := .ref path) (by simp [Token.of])
  have hpositive {k : Nat} {v : Value} (h : Follows theme k (.ref path) v)
      (hv : ∀ last, Token.of v ≠ .reference last) : 1 ≤ k := by
    cases h with
    | here => exact absurd rfl (hv path)
    | next => omega
  refine ⟨fun x => ⟨fun hx => ?_, ?_⟩, fun failure => ⟨fun hfails => ?_, ?_⟩, ?_, ?_⟩
  · rcases hcases with ⟨v, hv⟩ | ⟨k, v, outcome, hk, hv, hend⟩
    · rw [hdeep hv] at hx
      cases hx
    · rw [hends (by omega) hv hend] at hx
      cases hend with
      | literal htoken =>
        cases hx
        exact ⟨k, v, hpositive hv (by simp [htoken]), by omega, hv, htoken⟩
      | _ => cases hx
  · rintro ⟨k, v, -, hk, hv, htoken⟩
    exact hends hk hv (.literal htoken)
  · rcases hcases with ⟨v, hv⟩ | ⟨k, v, outcome, hk, hv, hend⟩
    · rw [hdeep hv] at hfails
      cases hfails
      exact Or.inr (Or.inr ⟨v, hv, rfl⟩)
    · rw [hends (by omega) hv hend] at hfails
      cases hend with
      | literal => cases hfails
      | group htoken =>
        cases hfails
        exact Or.inr (Or.inl
          ⟨k, v, _, hpositive hv (by simp [htoken]), by omega, hv, htoken, rfl⟩)
      | missing hlookup =>
        cases hfails
        exact Or.inl ⟨k, _, by omega, hv, hlookup⟩
  · rintro (⟨k, last, hk, hv, hlookup⟩ | ⟨k, v, cs, -, hk, hv, htoken, rfl⟩ | ⟨v, hv, rfl⟩)
    · exact hends hk hv (.missing hlookup)
    · exact hends hk hv (.group htoken)
    · exact hdeep hv
  · intro k n again hk hn hagain
    -- Going round often enough makes the chain longer than any bound.
    have hlong : 65 ≤ k + 65 * n := by omega
    obtain ⟨v, hv⟩ := (hk.trans (hagain.around 65)).exists_of_le hlong
    exact hdeep hv
  · intro fuel hfuel
    rcases hcases with ⟨v, hv⟩ | ⟨k, v, outcome, hk, hv, hend⟩
    · rw [hdeep hv]
      exact evaluateFrom_of_follows hv (by simp only [maxDepth]; omega)
    · rw [hends (by omega) hv hend]
      exact evaluateFrom_of_ends hv hend (by simp only [maxDepth]; omega) (by omega)

/-- A theme with a chain that ends in a row and two references to each other. -/
def circularTheme : Value := .map
  [(.text "a", .ref "b"), (.text "b", .ref "c.0"), (.text "c", .list [.text "#fff"]),
    (.text "x", .ref "y"), (.text "y", .ref "x")]

theorem evaluate_follows_circular :
    Inert circularTheme ∧ evaluate circularTheme (.ref "a") = .ok (.text "#fff") ∧
      evaluate circularTheme (.ref "x") = .error (.render .tooDeep) := by
  have hinert : Inert circularTheme := .map (by
    simp only [List.forall_mem_cons, List.not_mem_nil, false_implies, implies_true, and_true]
    exact ⟨.ref _, .ref _, .row (Or.inl rfl) (by simpa using Inert.text "#fff"), .ref _, .ref _⟩)
  refine ⟨hinert, ?_, ?_⟩
  · have ha : Follows circularTheme 3 (.ref "a") (.text "#fff") :=
      .next rfl (.next rfl (.next rfl (.here _)))
    exact ((evaluate_follows hinert "a").1 _).mpr ⟨3, _, by decide, by decide, ha, rfl⟩
  · have hx : Follows circularTheme 2 (.ref "x") (.ref "x") := .next rfl (.next rfl (.here _))
    exact (evaluate_follows hinert "x").2.2.1 0 2 "x" (.here _) (by decide) hx

end DesignTokens
