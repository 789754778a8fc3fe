import DesignTokens.Output.Script
import DesignTokens.Proofs.Identifiers

/-! What an index of modules says. Its text is read as the imports and the names that it exports,
exactly if the identifiers of all its modules are ones and no name breaks its line; it then binds
each module to its identifier. -/
namespace DesignTokens

open Text

/-- What an index says: each name that it imports with the module it stands for, and the names that
it exports. -/
structure ModuleIndex where
  imports : List (String × String)
  exports : List String
  deriving DecidableEq

namespace ModuleIndex

/-- What an import begins with. -/
def importMark : List Char := ['i', 'm', 'p', 'o', 'r', 't', ' ']

/-- What stands between the name and the module of an import. -/
def fromMark : List Char := [' ', 'f', 'r', 'o', 'm', ' ', '\'']

/-- What an export begins with. -/
def exportMark : List Char :=
  ['e', 'x', 'p', 'o', 'r', 't', ' ', 'd', 'e', 'f', 'a', 'u', 'l', 't', ' ', '\x7b']

/-- A name off the start of a text, which takes as many characters as it may. -/
def takeName? : List Char → Option (List Char × List Char)
  | [] => none
  | c :: rest =>
    if startsIdentifier c then
      some (c :: rest.takeWhile continuesIdentifier, rest.dropWhile continuesIdentifier)
    else none

/-- Whether the character may stand between single quotes as it is. -/
def isQuotable (c : Char) : Bool := c != '\'' && c != '\\' && c != '\r'

/-- The import that a line is. -/
def readImport? (line : List Char) : Option (String × String) := do
  let rest ← line.dropPrefix? importMark
  let (name, rest) ← takeName? rest
  let rest ← rest.dropPrefix? fromMark
  if rest.dropWhile isQuotable = ['\''] then
    some (String.ofList name, String.ofList (rest.takeWhile isQuotable))
  else none

/-- The names that a line exports. -/
def readExport? (line : List Char) : Option (List String) := do
  let rest ← line.dropPrefix? exportMark
  let body := rest.dropLast
  if rest.getLast? ≠ some '\x7d' then none
  else if body.all isBlank then some []
  else
    let names := (splitWhere (· == ',') body).map strip
    if names.all isIdentifier then some (names.map String.ofList) else none

/-- The index that lines are, the last of which is empty. -/
def readLines? : List (List Char) → Option ModuleIndex
  | [] => none
  | [line, []] => (readExport? line).map fun names => ⟨[], names⟩
  | line :: rest => do
    let binding ← readImport? line
    let index ← readLines? rest
    some ⟨binding :: index.imports, index.exports⟩

/-- The lines of a text. -/
def linesOf (s : List Char) : List (List Char) := splitWhere (· == '\n') s

/-- The index that a text is. -/
def read? (text : String) : Option ModuleIndex := readLines? (linesOf text.toList)

theorem dropPrefix?_eq_some {p s rest : List Char} :
    s.dropPrefix? p = some rest ↔ s = p ++ rest := by
  rw [List.dropPrefix?_eq_some_iff]
  constructor
  · intro h
    obtain ⟨q, hs, hq⟩ := h
    rw [hs, eq_of_beq hq]
  · intro h
    exact ⟨p, h, beq_self_eq_true p⟩

theorem takeWhile_append_of_forall {p : Char → Bool} {s : List Char} {c : Char}
    (hs : ∀ d ∈ s, p d = true) (hc : p c = false) (rest : List Char) :
    (s ++ c :: rest).takeWhile p = s ∧ (s ++ c :: rest).dropWhile p = c :: rest := by
  rw [List.takeWhile_append_of_pos hs, List.dropWhile_append_of_pos hs]
  simp [hc]

theorem takeName?_append {name rest : List Char} {c : Char} (hname : isIdentifier name = true)
    (hc : continuesIdentifier c = false) :
    takeName? (name ++ c :: rest) = some (name, c :: rest) := by
  cases name with
  | nil => cases hname
  | cons first tail =>
    obtain ⟨hfirst, htail⟩ := (Bool.and_eq_true _ _).mp hname
    have hcut := takeWhile_append_of_forall (List.all_eq_true.mp htail) hc rest
    rw [List.cons_append, takeName?, if_pos hfirst, hcut.1, hcut.2]

theorem takeName?_eq_some {s name rest : List Char} (h : takeName? s = some (name, rest)) :
    isIdentifier name = true ∧ s = name ++ rest := by
  cases s with
  | nil => cases h
  | cons c tail =>
    rw [takeName?] at h
    split at h
    · next hc =>
      cases h
      refine ⟨?_, ?_⟩
      · rw [isIdentifier, hc, Bool.true_and]
        exact List.all_takeWhile
      · rw [List.cons_append, List.takeWhile_append_dropWhile]
    · cases h

/-- The line that imports a module under a name. -/
def importText (name specifier : String) : List Char :=
  importMark ++ (name.toList ++ (fromMark ++ (specifier.toList ++ ['\''])))

/-- A line is read as an import exactly if it is the line of that import, its name is an identifier
and its module stands between the quotes as it is. -/
theorem readImport?_eq_some {line : List Char} {name specifier : String} :
    readImport? line = some (name, specifier) ↔ line = importText name specifier ∧
      isIdentifier name.toList = true ∧ ∀ c ∈ specifier.toList, isQuotable c = true := by
  constructor
  · intro h
    obtain ⟨rest, hrest, h⟩ := Option.bind_eq_some_iff.mp h
    obtain ⟨⟨found, rest'⟩, hname, h⟩ := Option.bind_eq_some_iff.mp h
    obtain ⟨rest'', hfrom, h⟩ := Option.bind_eq_some_iff.mp h
    obtain ⟨hidentifier, hfound⟩ := takeName?_eq_some hname
    split at h
    · next hquote =>
      cases h
      have hline : line = importMark ++ (found ++ (fromMark ++ rest'')) := by
        rw [dropPrefix?_eq_some.mp hrest, hfound, dropPrefix?_eq_some.mp hfrom]
      have hspecifier : rest''.takeWhile isQuotable ++ ['\''] = rest'' := by
        rw [← hquote, List.takeWhile_append_dropWhile]
      have hname : (String.ofList found).toList = found := String.toList_ofList
      have hquoted : (String.ofList (rest''.takeWhile isQuotable)).toList =
          rest''.takeWhile isQuotable := String.toList_ofList
      refine ⟨?_, ?_, ?_⟩
      · unfold importText
        rw [hname, hquoted, hspecifier]
        exact hline
      · rw [hname]
        exact hidentifier
      · rw [hquoted]
        exact fun c hc => List.mem_takeWhile_imp hc
    · cases h
  · intro h
    obtain ⟨rfl, hname, hspecifier⟩ := h
    have hblank : continuesIdentifier ' ' = false := by decide
    have hquote : isQuotable '\'' = false := by decide
    have hcut := takeWhile_append_of_forall hspecifier hquote []
    have hdrop : (importText name specifier).dropPrefix? importMark = some
        (name.toList ++ ' ' :: (fromMark.tail ++ (specifier.toList ++ ['\'']))) :=
      dropPrefix?_eq_some.mpr rfl
    have hfrom : (' ' :: (fromMark.tail ++ (specifier.toList ++ ['\'']))).dropPrefix?
        fromMark = some (specifier.toList ++ ['\'']) := dropPrefix?_eq_some.mpr rfl
    rw [readImport?, hdrop]
    simp only [Option.bind_eq_bind, Option.bind_some, takeName?_append hname hblank, hfrom]
    rw [if_pos hcut.2, hcut.1, String.ofList_toList, String.ofList_toList]

section Lines

variable {p : Char → Bool} {s rest : List Char} {module : String} {text : List Char}

/-- The first piece of a text ends with the text, or where it is first cut. -/
theorem splitWhere_cases (p : Char → Bool) (s : List Char) : splitWhere p s = [s] ∨
    ∃ piece c rest, s = piece ++ c :: rest ∧ p c = true ∧ (∀ d ∈ piece, p d = false) ∧
      splitWhere p s = piece :: splitWhere p rest := by
  by_cases hcut : ∀ d ∈ s, p d = false
  · exact Or.inl (splitWhere_of_forall hcut)
  have hdrop : s.dropWhile (fun d => !p d) ≠ [] := by
    intro hnil
    apply hcut
    intro d hd
    simpa using List.dropWhile_eq_nil_iff.mp hnil d hd
  obtain ⟨c, rest, hrest⟩ := List.exists_cons_of_ne_nil hdrop
  have hpiece : ∀ d ∈ s.takeWhile (fun d => !p d), p d = false :=
    fun d hd => by simpa using List.mem_takeWhile_imp hd
  have hc : p c = true := by
    have hhead := List.head_dropWhile_not (fun d => !p d) hdrop
    simpa [hrest] using hhead
  have hs : s = s.takeWhile (fun d => !p d) ++ c :: rest := by
    rw [← hrest, List.takeWhile_append_dropWhile]
  refine Or.inr ⟨_, c, rest, hs, hc, hpiece, ?_⟩
  have hsplit : splitWhere p (s.takeWhile (fun d => !p d) ++ c :: rest) =
      s.takeWhile (fun d => !p d) :: splitWhere p rest := splitWhere_append hpiece hc
  rwa [← hs] at hsplit

theorem linesOf_eq_empty (h : linesOf s = [[]]) : s = [] := by
  rcases splitWhere_cases (· == '\n') s with hs | ⟨piece, c, rest, hs, -, -, hcut⟩
  · rw [linesOf, hs] at h
    exact (List.cons.inj h).1
  · rw [linesOf, hcut] at h
    exact absurd (List.cons.inj h).2 (splitWhere_ne_nil rest)

theorem linesOf_append (h : '\n' ∉ s) (rest : List Char) :
    linesOf (s ++ '\n' :: rest) = s :: linesOf rest := by
  apply splitWhere_append
  · intro d hd
    have hne : d ≠ '\n' := fun heq => h (heq ▸ hd)
    simpa using hne
  · rfl

theorem readLines?_cons {line : List Char} {lines : List (List Char)} (h : lines ≠ [[]]) :
    readLines? (line :: lines) = (readImport? line).bind fun binding =>
      (readLines? lines).bind fun index =>
        some ⟨binding :: index.imports, index.exports⟩ := by
  rw [readLines?]
  · rfl
  · exact h

end Lines

/-- A name that does not break its line, with an identifier for it. -/
structure IsBound (module : String) : Prop where
  identifier : isIdentifier (identifierOf module).toList = true
  newline : '\n' ∉ module.toList
  returns : '\r' ∉ module.toList

/-- The line by which a module is imported. -/
def lineOf (module : String) : List Char := importText (identifierOf module) ("./" ++ module)

theorem not_mem_of_isIdentifier {module : String} {c : Char}
    (h : isIdentifier (identifierOf module).toList = true) (hlower : lowerChar c = [c])
    (hupper : upperChar c = [c]) (hword : separatesWords c = false)
    (hc : continuesIdentifier c = false) : c ∉ module.toList := by
  intro hmem
  have hcamel := mem_toCamel_of_mem hlower hupper hword hmem
  rw [isIdentifier_identifierOf.mp h c hcamel] at hc
  cases hc

/-- An identifier that holds a blank comes from a name without words. -/
theorem letter_not_mem {module : String} (h : ' ' ∈ (identifierOf module).toList) :
    'f' ∉ (identifierOf module).toList := by
  have hcamel : ∀ c, c ≠ '_' → c ∈ (identifierOf module).toList → c ∈ (toCamel module).toList := by
    intro c hc hmem
    rcases identifierOf_cases module with ⟨-, hname⟩ | ⟨-, hname⟩
    · rwa [hname] at hmem
    · rw [hname, toList_underscore_append] at hmem
      exact (List.mem_cons.mp hmem).resolve_left hc
  intro hletter
  have hblank := hcamel ' ' (by decide) h
  have hletter := hcamel 'f' (by decide) hletter
  by_cases hless : ∀ c ∈ module.toList, separatesWords c = true
  · rw [toCamel_of_wordless hless] at hletter
    exact absurd (hless 'f' hletter) (by decide)
  · have hnone := toCamel_not_separates (by simpa using hless) ' ' hblank
    exact absurd hnone (by decide)

/-- What comes before the first of a character is told by the text. -/
theorem append_cons_inj_of_not_mem {s s' rest rest' : List Char} {c : Char} (hs : c ∉ s)
    (hs' : c ∉ s') (h : s ++ c :: rest = s' ++ c :: rest') : s = s' ∧ rest = rest' := by
  have hfree : ∀ {t : List Char}, c ∉ t → ∀ d ∈ t, (d != c) = true := by
    intro t ht d hd
    have hne : d ≠ c := fun heq => ht (heq ▸ hd)
    simpa using hne
  have hc : (c != c) = false := by simp
  have hcut := takeWhile_append_of_forall (hfree hs) hc rest
  have hcut' := takeWhile_append_of_forall (hfree hs') hc rest'
  rw [h] at hcut
  exact ⟨hcut.1.symm.trans hcut'.1, (List.cons.inj (hcut.2.symm.trans hcut'.2)).2⟩

/-- Of two ways to cut a text at a character, the one before which the character does not stand
comes first. -/
theorem exists_more_of_not_mem {s line text rest : List Char} {c : Char} (hline : c ∉ line)
    (h : s ++ c :: text = line ++ c :: rest) :
    ∃ more, s = line ++ more ∧ c :: rest = more ++ c :: text := by
  rcases List.append_eq_append_iff.mp h with ⟨tail, hlonger, hends⟩ | hshorter
  · cases tail with
    | nil => exact ⟨[], by simpa using hlonger.symm, by simpa using hends.symm⟩
    | cons d tail =>
      obtain rfl : c = d := (List.cons.inj hends).1
      exact absurd (hlonger ▸ List.mem_append_right _ List.mem_cons_self) hline
  · exact hshorter

/-- Two names before what follows them in an import are the same, if the one holds no blank with a
letter and the other no blank at all: neither goes on where the other ends. -/
theorem append_fromMark_inj {s s' rest rest' : List Char} (hs : ' ' ∈ s → 'f' ∉ s) (hs' : ' ' ∉ s')
    (h : s ++ (fromMark ++ rest) = s' ++ (fromMark ++ rest')) : s' = s ∧ rest = rest' := by
  have hfrom : fromMark = ' ' :: 'f' :: ['r', 'o', 'm', ' ', '\''] := rfl
  rcases List.append_eq_append_iff.mp h with ⟨tail, hlonger, hrest⟩ | ⟨tail, hlonger, hrest⟩
  · cases tail with
    | nil =>
      rw [List.append_nil] at hlonger
      exact ⟨hlonger, List.append_cancel_left hrest⟩
    | cons c tail =>
      rw [hfrom] at hrest
      obtain rfl : ' ' = c := (List.cons.inj hrest).1
      exact absurd (hlonger ▸ List.mem_append_right _ List.mem_cons_self) hs'
  · cases tail with
    | nil =>
      rw [List.append_nil] at hlonger
      exact ⟨hlonger.symm, (List.append_cancel_left hrest).symm⟩
    | cons c tail =>
      rw [hfrom] at hrest
      obtain ⟨rfl, hnext⟩ := List.cons.inj hrest
      have hblank : ' ' ∈ s := hlonger ▸ List.mem_append_right _ List.mem_cons_self
      cases tail with
      | nil => exact absurd (List.cons.inj hnext).1 (by decide)
      | cons d tail =>
        obtain rfl : 'f' = d := (List.cons.inj hnext).1
        have hletter : 'f' ∈ s :=
          hlonger ▸ List.mem_append_right _ (List.mem_cons_of_mem _ List.mem_cons_self)
        exact absurd hletter (hs hblank)

/-- An import that a line begins with is the one that the line was written for, and all of it. -/
theorem eq_of_lineOf {module name specifier : String} {more : List Char}
    (h : lineOf module = importText name specifier ++ more)
    (hname : isIdentifier name.toList = true)
    (hspecifier : ∀ c ∈ specifier.toList, isQuotable c = true) :
    name = identifierOf module ∧ specifier = "./" ++ module ∧ more = [] := by
  have hcut : (identifierOf module).toList ++
        (fromMark ++ (("./" ++ module).toList ++ ['\''])) =
      name.toList ++ (fromMark ++ (specifier.toList ++ '\'' :: more)) := by
    have hmark := h
    rw [lineOf, importText, importText, List.append_assoc] at hmark
    simpa using List.append_cancel_left hmark
  have hblank : ' ' ∉ name.toList := by
    intro hmem
    exact absurd (continues_of_isIdentifier hname ' ' hmem) (by decide)
  obtain ⟨hsame, hrest⟩ := append_fromMark_inj letter_not_mem hblank hcut
  have hidentifier : name = identifierOf module := String.toList_injective hsame
  have hquote : '\'' ∉ ("./" ++ module).toList := by
    have hmodule : '\'' ∉ module.toList :=
      not_mem_of_isIdentifier (hidentifier ▸ hname) (by decide) (by decide) (by decide) (by decide)
    simpa using hmodule
  have hplain : '\'' ∉ specifier.toList := by
    intro hmem
    exact absurd (hspecifier '\'' hmem) (by decide)
  obtain ⟨hspec, hmore⟩ := append_cons_inj_of_not_mem hquote hplain hrest
  exact ⟨hidentifier, (String.toList_injective hspec).symm, hmore.symm⟩

theorem IsBound.isQuotable {module : String} (h : IsBound module) :
    ∀ c ∈ ("./" ++ module).toList, isQuotable c = true := by
  have hquote : '\'' ∉ module.toList :=
    not_mem_of_isIdentifier h.identifier (by decide) (by decide) (by decide) (by decide)
  have hslash : '\\' ∉ module.toList :=
    not_mem_of_isIdentifier h.identifier (by decide) (by decide) (by decide) (by decide)
  intro c hc
  have hlist : ("./" ++ module).toList = ['.', '/'] ++ module.toList := String.toList_append
  rw [hlist] at hc
  rcases List.mem_append.mp hc with hc | hc
  · rcases List.mem_pair.mp hc with rfl | rfl
    · rfl
    · rfl
  · have hne : c ≠ '\'' ∧ c ≠ '\\' ∧ c ≠ '\r' :=
      ⟨fun heq => hquote (heq ▸ hc), fun heq => hslash (heq ▸ hc), fun heq => h.returns (heq ▸ hc)⟩
    simp [ModuleIndex.isQuotable, hne]

theorem IsBound.newline_not_mem {module : String} (h : IsBound module) : '\n' ∉ lineOf module := by
  have hname : '\n' ∉ (identifierOf module).toList := by
    intro hmem
    exact absurd (continues_of_isIdentifier h.identifier '\n' hmem) (by decide)
  have hmarks : '\n' ∉ importMark ∧ '\n' ∉ fromMark := by decide
  have hmodule := h.newline
  simp [lineOf, importText, hname, hmodule, hmarks]

/-- A text that begins with the line of a module is read exactly if the module is bound and the rest
of the text is read. -/
theorem readLines?_step {module : String} {text : List Char} {found : ModuleIndex}
    (htext : text ≠ []) : readLines? (linesOf (lineOf module ++ '\n' :: text)) = some found ↔
      IsBound module ∧ ∃ index, readLines? (linesOf text) = some index ∧
        found = ⟨(identifierOf module, "./" ++ module) :: index.imports, index.exports⟩ := by
  have hlines : linesOf text ≠ [[]] := fun h => htext (linesOf_eq_empty h)
  constructor
  · intro h
    rcases splitWhere_cases (· == '\n') (lineOf module ++ '\n' :: text) with
      hs | ⟨line, c, rest, hs, hc, hline, hcut⟩
    · rw [linesOf, hs, readLines?_cons (by simp)] at h
      obtain ⟨_, -, h⟩ := Option.bind_eq_some_iff.mp h
      cases h
    obtain rfl : c = '\n' := by simpa using hc
    have hfree : '\n' ∉ line := fun hmem => absurd (hline _ hmem) (by decide)
    have hrest : linesOf rest ≠ [[]] := by
      intro hempty
      rw [linesOf_eq_empty hempty] at hs
      have hinit := congrArg List.dropLast hs
      rw [List.dropLast_concat, List.dropLast_append_of_ne_nil (by simp),
        List.dropLast_cons_of_ne_nil htext] at hinit
      exact hfree (hinit ▸ List.mem_append_right _ List.mem_cons_self)
    have hcut : linesOf (lineOf module ++ '\n' :: text) = line :: linesOf rest := hcut
    rw [hcut, readLines?_cons hrest] at h
    obtain ⟨⟨name, specifier⟩, himport, h⟩ := Option.bind_eq_some_iff.mp h
    obtain ⟨index, hindex, hfound⟩ := Option.bind_eq_some_iff.mp h
    obtain ⟨htextual, hname, hspecifier⟩ := readImport?_eq_some.mp himport
    obtain ⟨more, hmore, hends⟩ := exists_more_of_not_mem hfree hs
    rw [htextual] at hmore
    obtain ⟨rfl, rfl, rfl⟩ := eq_of_lineOf hmore hname hspecifier
    obtain rfl : rest = text := (List.cons.inj hends).2
    refine ⟨⟨hname, ?_, ?_⟩, index, hindex, (Option.some.inj hfound).symm⟩
    · intro hmem
      apply hfree
      rw [htextual]
      simp [importText, hmem]
    · intro hmem
      have hquoted := hspecifier '\r' (by simp [hmem])
      exact absurd hquoted (by decide)
  · intro h
    obtain ⟨hbound, index, hindex, rfl⟩ := h
    have himport : readImport? (lineOf module) = some (identifierOf module, "./" ++ module) :=
      readImport?_eq_some.mpr ⟨rfl, hbound.identifier, hbound.isQuotable⟩
    rw [linesOf_append hbound.newline_not_mem, readLines?_cons hlines, himport, hindex]
    rfl

/-- The line that exports names. -/
def exportText (names : List String) : List Char :=
  exportMark ++ ((' ' :: (", ".intercalate names).toList ++ [' ']) ++ ['\x7d'])

theorem isBlank_of_isIdentifier {name : List Char} (h : isIdentifier name = true) :
    ∀ c ∈ name, isBlank c = false ∧ c ≠ ',' ∧ c ≠ '\n' := by
  intro c hc
  have hcontinues := continues_of_isIdentifier h c hc
  refine ⟨?_, ?_, ?_⟩
  · by_contra hblank
    rw [Bool.not_eq_false] at hblank
    have hseparates : separatesWords c = true := by simp [separatesWords, hblank]
    obtain rfl := eq_underscore_of_separates hseparates hcontinues
    exact absurd hblank (by decide)
  · rintro rfl
    exact absurd hcontinues (by decide)
  · rintro rfl
    exact absurd hcontinues (by decide)

theorem strip_padded {cs : List Char} (h : ∀ c ∈ cs, isBlank c = false) :
    strip (' ' :: cs) = cs ∧ strip (' ' :: (cs ++ [' '])) = cs := by
  have hblank : ∀ c ∈ [' '], isBlank c = true := List.forall_mem_singleton.mpr (by decide)
  have hstart := strip_append (s := cs) hblank (List.forall_mem_nil _)
  rw [List.append_nil] at hstart
  exact ⟨hstart.trans (strip_of_forall h), (strip_append hblank hblank).trans (strip_of_forall h)⟩

theorem pieces_eq {names : List String} (hne : names ≠ [])
    (h : ∀ name ∈ names, isIdentifier name.toList = true) :
    (splitWhere (· == ',') (' ' :: (", ".intercalate names).toList ++ [' '])).map strip =
      names.map String.toList := by
  induction names with
  | nil => exact absurd rfl hne
  | cons name rest ih =>
    have hname := h name List.mem_cons_self
    have hclean := isBlank_of_isIdentifier hname
    obtain ⟨hstrip, hstrip'⟩ := strip_padded fun c hc => (hclean c hc).1
    have hfree : ∀ c ∈ ' ' :: name.toList, (c == ',') = false := by
      intro c hc
      rcases List.mem_cons.mp hc with rfl | hc
      · rfl
      · simpa using (hclean c hc).2.1
    cases rest with
    | nil =>
      have hlast : ∀ c ∈ ' ' :: name.toList ++ [' '], (c == ',') = false :=
        List.forall_mem_append.mpr ⟨hfree, List.forall_mem_singleton.mpr (by decide)⟩
      rw [String.intercalate_singleton, splitWhere_of_forall hlast]
      exact congrArg (· :: []) hstrip'
    | cons next tail =>
      have hlist : ' ' :: (", ".intercalate (name :: next :: tail)).toList ++ [' '] =
          (' ' :: name.toList) ++
            ',' :: (' ' :: (", ".intercalate (next :: tail)).toList ++ [' ']) := by
        have hcomma : ", ".toList = [',', ' '] := rfl
        rw [String.intercalate_cons_cons, String.toList_append, String.toList_append, hcomma]
        simp
      have hrest := ih (by simp) fun n hn => h n (List.mem_cons_of_mem _ hn)
      rw [hlist, splitWhere_append hfree rfl, List.map_cons, hrest, hstrip]
      rfl

theorem readExport?_exportText {names : List String}
    (h : ∀ name ∈ names, isIdentifier name.toList = true) :
    readExport? (exportText names) = some names := by
  have hdrop : (exportText names).dropPrefix? exportMark =
      some ((' ' :: (", ".intercalate names).toList ++ [' ']) ++ ['\x7d']) :=
    dropPrefix?_eq_some.mpr rfl
  rw [readExport?, hdrop]
  simp only [Option.bind_eq_bind, Option.bind_some, List.dropLast_concat, List.getLast?_concat]
  rw [if_neg (by simp)]
  by_cases hne : names = []
  · subst hne
    rfl
  have hpieces := pieces_eq hne h
  have hblank : (' ' :: (", ".intercalate names).toList ++ [' ']).all isBlank ≠ true := by
    obtain ⟨name, rest, rfl⟩ := List.exists_cons_of_ne_nil hne
    have hname := h name List.mem_cons_self
    intro hall
    obtain ⟨more, hmore⟩ : ∃ more, ", ".intercalate (name :: rest) = name ++ more := by
      cases rest with
      | nil => exact ⟨"", by simp⟩
      | cons next tail => exact ⟨_, by rw [String.intercalate_cons_cons, String.append_assoc]⟩
    cases hlist : name.toList with
    | nil =>
      rw [hlist] at hname
      cases hname
    | cons c cs =>
      have hc : c ∈ name.toList := hlist ▸ List.mem_cons_self
      have hmem : c ∈ ' ' :: (", ".intercalate (name :: rest)).toList ++ [' '] := by
        rw [hmore]
        simp [hc]
      have hclean := (isBlank_of_isIdentifier hname c hc).1
      rw [List.all_eq_true.mp hall c hmem] at hclean
      cases hclean
  have hall : (names.map String.toList).all isIdentifier = true := by
    rw [List.all_map]
    exact List.all_eq_true.mpr h
  have hlist : (names.map String.toList).map String.ofList = names := by simp
  rw [if_neg hblank, hpieces, if_pos hall, hlist]

theorem newline_not_mem_exportText {names : List String}
    (h : ∀ name ∈ names, isIdentifier name.toList = true) : '\n' ∉ exportText names := by
  have hnames : '\n' ∉ (", ".intercalate names).toList := by
    have hcomma : '\n' ∉ ", ".toList := by decide
    induction names with
    | nil => simp
    | cons name rest ih =>
      have hname : '\n' ∉ name.toList := fun hmem =>
        (isBlank_of_isIdentifier (h name List.mem_cons_self) _ hmem).2.2 rfl
      have hrest := ih fun n hn => h n (List.mem_cons_of_mem _ hn)
      cases rest with
      | nil => simpa using hname
      | cons next tail =>
        rw [String.intercalate_cons_cons, String.toList_append, String.toList_append]
        simp only [List.mem_append, not_or]
        exact ⟨⟨hname, hcomma⟩, hrest⟩
  have hmark : '\n' ∉ exportMark := by decide
  simp [exportText, hmark, hnames, -String.toList_intercalate]

theorem toList_lines (before : List String) (last : String) :
    ("\n".intercalate (before ++ [last]) ++ "\n").toList =
      before.flatMap (fun line => line.toList ++ ['\n']) ++ (last.toList ++ ['\n']) := by
  have hnewline : "\n".toList = ['\n'] := rfl
  induction before with
  | nil => rw [List.nil_append, String.intercalate_singleton, String.toList_append, hnewline]; rfl
  | cons line rest ih =>
    have hne : rest ++ [last] ≠ [] := by simp
    rw [List.cons_append, String.intercalate_cons_of_ne_nil hne, String.append_assoc,
      String.append_assoc, String.toList_append, String.toList_append, ih, hnewline,
      List.flatMap_cons]
    simp

theorem toList_scriptIndex (modules : List String) : (scriptIndex modules).toList =
    modules.flatMap (fun module => lineOf module ++ ['\n']) ++
      (exportText (modules.map identifierOf) ++ ['\n']) := by
  have hline : ∀ module, (s!"import {identifierOf module} from './{module}'").toList =
      lineOf module := by
    intro module
    have himport : "import ".toList = importMark := rfl
    have hfrom : " from './".toList = fromMark ++ "./".toList := rfl
    have hquote : "'".toList = ['\''] := rfl
    show ("import " ++ identifierOf module ++ " from './" ++ module ++ "'").toList = _
    rw [String.toList_append, String.toList_append, String.toList_append, String.toList_append,
      himport, hfrom, hquote, lineOf, importText, String.toList_append]
    simp only [List.append_assoc]
  have hlast : ∀ names : String, (s!"export default \x7b {names} \x7d").toList =
      exportMark ++ ((' ' :: names.toList ++ [' ']) ++ ['\x7d']) := by
    intro names
    have hexport : "export default \x7b ".toList = exportMark ++ [' '] := rfl
    have hclose : " \x7d".toList = [' '] ++ ['\x7d'] := rfl
    show ("export default \x7b " ++ names ++ " \x7d").toList = _
    rw [String.toList_append, String.toList_append, hexport, hclose]
    simp only [List.append_assoc, List.cons_append, List.nil_append]
  have hlines : (scriptIndex modules).toList = _ := toList_lines
    (modules.map fun module => s!"import {identifierOf module} from './{module}'") _
  rw [hlast, List.flatMap_map] at hlines
  simp only [hline] at hlines
  exact hlines

end ModuleIndex

open ModuleIndex

/-- The lines of modules are read exactly if each module is bound and what follows is read. -/
theorem ModuleIndex.readLines?_lines {modules : List String} {text : List Char}
    {found : ModuleIndex} (htext : text ≠ []) :
    readLines? (linesOf (modules.flatMap (fun module => lineOf module ++ ['\n']) ++ text)) =
        some found ↔
      (∀ module ∈ modules, IsBound module) ∧ ∃ index, readLines? (linesOf text) = some index ∧
        found = ⟨modules.map (fun module => (identifierOf module, "./" ++ module)) ++ index.imports,
          index.exports⟩ := by
  induction modules generalizing found with
  | nil =>
    simp
  | cons module rest ih =>
    have hcons : (module :: rest).flatMap (fun module => lineOf module ++ ['\n']) ++ text =
        lineOf module ++
          '\n' :: (rest.flatMap (fun module => lineOf module ++ ['\n']) ++ text) := by
      simp
    have hne : rest.flatMap (fun module => lineOf module ++ ['\n']) ++ text ≠ [] := by
      simp [htext]
    rw [hcons, readLines?_step hne]
    constructor
    · intro h
      obtain ⟨hbound, index, hindex, rfl⟩ := h
      obtain ⟨hrest, last, hlast, rfl⟩ := ih.mp hindex
      exact ⟨List.forall_mem_cons.mpr ⟨hbound, hrest⟩, last, hlast, rfl⟩
    · intro h
      obtain ⟨hbound, last, hlast, rfl⟩ := h
      obtain ⟨hmodule, hrest⟩ := List.forall_mem_cons.mp hbound
      exact ⟨hmodule, _, ih.mpr ⟨hrest, last, hlast, rfl⟩, rfl⟩

/-- The index of modules is read exactly if all of them are bound. It then imports each under its
identifier, and exports these identifiers, both in the order of the modules. -/
theorem ModuleIndex.read?_scriptIndex {modules : List String} {found : ModuleIndex} :
    read? (scriptIndex modules) = some found ↔ (∀ module ∈ modules, IsBound module) ∧
      found = ⟨modules.map fun module => (identifierOf module, "./" ++ module),
        modules.map identifierOf⟩ := by
  have hexport : (∀ module ∈ modules, IsBound module) →
      readLines? (linesOf (exportText (modules.map identifierOf) ++ ['\n'])) =
        some ⟨[], modules.map identifierOf⟩ := by
    intro h
    have hnames : ∀ name ∈ modules.map identifierOf, isIdentifier name.toList = true := by
      intro name hname
      obtain ⟨module, hmodule, rfl⟩ := List.mem_map.mp hname
      exact (h module hmodule).identifier
    rw [linesOf_append (newline_not_mem_exportText hnames)]
    show (readExport? (exportText (modules.map identifierOf))).map _ = _
    rw [readExport?_exportText hnames]
    rfl
  rw [read?, toList_scriptIndex, readLines?_lines (by simp)]
  constructor
  · intro h
    obtain ⟨hbound, index, hindex, rfl⟩ := h
    rw [hexport hbound] at hindex
    cases hindex
    exact ⟨hbound, by simp⟩
  · intro h
    obtain ⟨hbound, rfl⟩ := h
    exact ⟨hbound, _, hexport hbound, by simp⟩

/-- What an index of modules says, whatever the names of the modules are. Its text is read as an
index exactly if the camel form of each name holds only what may stand in an identifier and no name
breaks its line; it then imports each module under its identifier and exports these identifiers in
order. A name of letters, digits, hyphens and underscores is such a name, if it has a letter or a
digit. The identifiers of the modules differ exactly if their camel forms do. -/
theorem scriptIndex_binds (modules : List String) (hne : ∀ module ∈ modules, module ≠ "") :
    (∀ found, read? (scriptIndex modules) = some found ↔
      (∀ module ∈ modules, (∀ c ∈ (toCamel module).toList, continuesIdentifier c = true) ∧
        '\n' ∉ module.toList ∧ '\r' ∉ module.toList) ∧
      found = ⟨modules.map fun module => (identifierOf module, "./" ++ module),
        modules.map identifierOf⟩) ∧
    (∀ module, (isIdentifier (identifierOf module).toList = true ↔
        ∀ c ∈ (toCamel module).toList, continuesIdentifier c = true) ∧
      ((∀ c ∈ module.toList, c.isAlphanum = true ∨ c = '-' ∨ c = '_') →
        (∃ c ∈ module.toList, c.isAlphanum = true) →
          isIdentifier (identifierOf module).toList = true)) ∧
    ((modules.map identifierOf).Nodup ↔ (modules.map toCamel).Nodup) := by
  refine ⟨?_, fun module => ⟨isIdentifier_identifierOf, isIdentifier_of_plain⟩, ?_⟩
  · intro found
    have hbound : (∀ module ∈ modules, IsBound module) ↔
        ∀ module ∈ modules, (∀ c ∈ (toCamel module).toList, continuesIdentifier c = true) ∧
          '\n' ∉ module.toList ∧ '\r' ∉ module.toList := by
      apply forall₂_congr
      intro module _
      rw [← isIdentifier_identifierOf]
      constructor
      · intro h
        exact ⟨h.identifier, h.newline, h.returns⟩
      · intro h
        exact ⟨h.1, h.2.1, h.2.2⟩
    rw [← hbound]
    exact read?_scriptIndex
  · unfold List.Nodup
    rw [List.pairwise_map, List.pairwise_map]
    apply List.Pairwise.iff_of_mem
    intro a b ha hb
    exact not_congr (identifierOf_eq_iff (hne a ha) (hne b hb))

theorem scriptIndex_binds_dimmed :
    (∀ module ∈ ["2x", "dark_dimmed"], module ≠ "") ∧
    read? (scriptIndex ["2x", "dark_dimmed"]) =
      some ⟨[("_2x", "./2x"), ("darkDimmed", "./dark_dimmed")], ["_2x", "darkDimmed"]⟩ ∧
    isIdentifier (identifierOf "dark_dimmed").toList = true ∧
    (["2x", "dark_dimmed"].map identifierOf).Nodup := by
  have hne : ∀ module ∈ ["2x", "dark_dimmed"], module ≠ "" := by decide
  obtain ⟨hread, hvalid, hdistinct⟩ := scriptIndex_binds ["2x", "dark_dimmed"] hne
  have hcamel : toCamel "2x" = "2x" ∧ toCamel "dark_dimmed" = "darkDimmed" := by decide +kernel
  have hname : identifierOf "2x" = "_2x" ∧ identifierOf "dark_dimmed" = "darkDimmed" := by
    decide +kernel
  have hscale : "2x".toList.all continuesIdentifier = true := by decide +kernel
  have hdimmed : "darkDimmed".toList.all continuesIdentifier = true := by decide +kernel
  refine ⟨hne, (hread _).mpr ⟨?_, ?_⟩, (hvalid _).2 (by simp) (by simp), hdistinct.mpr ?_⟩
  · simp only [List.forall_mem_cons, List.not_mem_nil, false_implies, implies_true, and_true,
      hcamel.1, hcamel.2]
    exact ⟨⟨List.all_eq_true.mp hscale, by simp⟩, List.all_eq_true.mp hdimmed, by simp⟩
  · rw [List.map_cons, List.map_singleton, List.map_cons, List.map_singleton, hname.1, hname.2]
    rfl
  · rw [List.map_cons, List.map_singleton, hcamel.1, hcamel.2]
    decide

/-- A name with a dot has no identifier, and its index is none; two names with one camel form share
theirs. So the identifiers of modules need neither be ones nor differ. -/
theorem scriptIndex_unbound :
    identifierOf "a.b" = "_a.b" ∧ isIdentifier "_a.b".toList = false ∧
    read? (scriptIndex ["a.b"]) = none ∧
    read? (scriptIndex ["dark-dimmed", "dark_dimmed"]) =
      some ⟨[("darkDimmed", "./dark-dimmed"), ("darkDimmed", "./dark_dimmed")],
        ["darkDimmed", "darkDimmed"]⟩ ∧
    ¬ ∀ modules : List String, modules.Nodup → (∀ module ∈ modules, module ≠ "") →
      (∀ module ∈ modules, isIdentifier (identifierOf module).toList = true) ∧
        (modules.map identifierOf).Nodup := by
  have hdot : identifierOf "a.b" = "_a.b" := by decide +kernel
  have hnone : isIdentifier "_a.b".toList = false := by decide +kernel
  refine ⟨hdot, hnone, by decide +kernel, by decide +kernel, ?_⟩
  intro h
  have hidentifier := (h ["a.b"] (by decide) (by decide)).1 "a.b" List.mem_cons_self
  rw [hdot, hnone] at hidentifier
  cases hidentifier

end DesignTokens
