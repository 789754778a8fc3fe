import DesignTokens.Proofs.Emission
import DesignTokens.Proofs.Lifecycle
import DesignTokens.Proofs.Overlaying
import Mathlib.Data.Set.Image

/-! Modes as trees. Parity is told of names, and one name can be spelled along several paths if keys
hold dots. The tree of a mode branches along the paths of its variables, evaluating it and writing it
as tokens keep how it branches, and keys in camel case do where siblings stay apart. So modes that
define the same names are interchangeable as trees exactly if they spell them along the same paths. -/
namespace DesignTokens

open Value

/-- What is left of the paths that begin with a key. -/
def pathsBelow (k : String) (paths : Set (List String)) : Set (List String) :=
  {rest | k :: rest ∈ paths}

/-- A value branches along paths: it stands at the empty path, the only one, or it is a mapping under
the first segments of the paths, and what stands under each of them branches along what is left. -/
inductive Value.Branches : Set (List String) → Value → Prop where
  | leaf (v : Value) : Branches {[]} v
  | group {paths : Set (List String)} {es : List (Value × Value)} (hpath : [] ∉ paths)
      (hnodup : (es.map (·.1)).Nodup)
      (hkeys : ∀ key, key ∈ es.map (·.1) ↔ ∃ k, key = .text k ∧ (pathsBelow k paths).Nonempty)
      (hinner : ∀ k x, (.text k, x) ∈ es → Branches (pathsBelow k paths) x) :
      Branches paths (.map es)

/-- A path with its keys in camel case. -/
def camelPath (path : List String) : List String := path.map toCamel

/-- Different keys of one group stay different in camel case. -/
def CamelApart (paths : Set (List String)) : Prop :=
  ∀ start k l rest rest', start ++ k :: rest ∈ paths → start ++ l :: rest' ∈ paths →
    toCamel k = toCamel l → k = l

theorem CamelApart.below {paths : Set (List String)} (h : CamelApart paths) (k : String) :
    CamelApart (pathsBelow k paths) := fun start => h (k :: start)

/-- Below a key in camel case stands what stands below the key. -/
theorem pathsBelow_camelPath {paths : Set (List String)} (h : CamelApart paths) {k : String}
    (hk : (pathsBelow k paths).Nonempty) :
    pathsBelow (toCamel k) (camelPath '' paths) = camelPath '' pathsBelow k paths := by
  ext rest
  constructor
  · rintro ⟨path, hpath, he⟩
    obtain ⟨l, tail, rfl, hl, rfl⟩ := List.map_eq_cons_iff.mp he
    obtain ⟨rest', hk⟩ := hk
    obtain rfl := h [] l k tail rest' hpath hk hl
    exact ⟨tail, hpath, rfl⟩
  · rintro ⟨tail, htail, rfl⟩
    exact ⟨k :: tail, htail, rfl⟩

theorem pathsBelow_leaves (k : String) (ls : List Leaf) :
    pathsBelow k {path | ∃ v, (path, v) ∈ ls} = {path | ∃ v, (path, v) ∈ beneath k ls} :=
  Set.ext fun _ => exists_congr fun _ => mem_beneath.symm

theorem nonempty_pathsBelow {k : String} {ls : List Leaf} :
    (pathsBelow k {path | ∃ v, (path, v) ∈ ls}).Nonempty ↔ beneath k ls ≠ [] := by
  rw [pathsBelow_leaves]
  constructor
  · rintro ⟨rest, v, hv⟩
    exact List.ne_nil_of_mem hv
  · intro hne
    obtain ⟨l, hl⟩ := List.exists_mem_of_ne_nil _ hne
    exact ⟨l.1, l.2, hl⟩

theorem Comprises.branches {ls : List Leaf} {x : Value} (h : Comprises ls x) :
    x.Branches {path | ∃ v, (path, v) ∈ ls} := by
  induction h with
  | leaf v =>
    have hroot : {path | ∃ w, (path, w) ∈ [(([] : List String), v)]} = {[]} := by
      ext path
      simp
    rw [hroot]
    exact .leaf v
  | @group ls es hpath hnodup hkeys _ ih =>
    refine .group (fun ⟨v, hv⟩ => hpath _ hv rfl) hnodup (fun key => ?_) fun k x hx => ?_
    · rw [hkeys]
      refine exists_congr fun k => and_congr_right fun _ => ?_
      exact nonempty_pathsBelow.symm
    · rw [pathsBelow_leaves]
      exact ih k x hx

theorem entriesToDtcg_eq_map (es : List (Value × Value)) :
    entriesToDtcg es = es.map fun e => (e.1, toDtcg e.2) := by
  induction es with
  | nil => simp [entriesToDtcg]
  | cons e rest ih => simp [entriesToDtcg, ih]

theorem camelizeEntries_eq_map (es : List (Value × Value)) :
    camelizeEntries es = es.map fun e => (.text (toCamel e.1.plain), camelizeKeys e.2) := by
  induction es with
  | nil => simp [camelizeEntries]
  | cons e rest ih => simp [camelizeEntries, ih]

theorem keys_camelizeEntries (es : List (Value × Value)) :
    (camelizeEntries es).map (·.1) =
      (es.map (·.1)).map fun key => .text (toCamel key.plain) := by
  simp [camelizeEntries_eq_map, Function.comp_def]

section CamelKeys

/-! A group whose keys are the first segments of paths, with its keys in camel case. -/

variable {paths : Set (List String)} {es : List (Value × Value)}
  (hkeys : ∀ key ∈ es.map (·.1), ∃ k, key = .text k ∧ (pathsBelow k paths).Nonempty)
include hkeys

theorem mem_camelizeEntries {e : Value × Value} :
    e ∈ camelizeEntries es ↔ ∃ k x, (.text k, x) ∈ es ∧ (pathsBelow k paths).Nonempty ∧
      e = (.text (toCamel k), camelizeKeys x) := by
  rw [camelizeEntries_eq_map, List.mem_map]
  constructor
  · rintro ⟨⟨key, x⟩, hx, rfl⟩
    obtain ⟨k, rfl, hk⟩ := hkeys key (List.mem_map.mpr ⟨_, hx, rfl⟩)
    exact ⟨k, x, hx, hk, by simp⟩
  · rintro ⟨k, x, hx, -, rfl⟩
    exact ⟨_, hx, by simp⟩

theorem camelizeEntries_nodup (hnodup : (es.map (·.1)).Nodup) (hapart : CamelApart paths) :
    ((camelizeEntries es).map (·.1)).Nodup := by
  rw [keys_camelizeEntries]
  refine hnodup.map_on fun a ha b hb hab => ?_
  obtain ⟨k, rfl, rest, hk⟩ := hkeys a ha
  obtain ⟨l, rfl, rest', hl⟩ := hkeys b hb
  have hkl : toCamel k = toCamel l := by simpa using hab
  rw [hapart [] k l rest rest' hk hl hkl]

/-- Where siblings stay apart no entry is lost. -/
theorem ofEntries_camelizeEntries (hnodup : (es.map (·.1)).Nodup) (hapart : CamelApart paths) :
    ofEntries (camelizeEntries es) = camelizeEntries es := by
  refine ofEntries_of_nodup (camelizeEntries_nodup hkeys hnodup hapart) fun e he => ?_
  obtain ⟨k, x, -, -, rfl⟩ := (mem_camelizeEntries hkeys).mp he
  exact ⟨toCamel k, rfl⟩

end CamelKeys

namespace Value.Branches

variable {paths : Set (List String)} {x y : Value}

/-- Evaluating the leaves of a tree keeps how it branches. -/
theorem render [Platform] {theme : Value} (h : x.Branches paths) (hy : renderNode theme x = .ok y) :
    y.Branches paths := by
  induction h generalizing y with
  | leaf v => exact .leaf y
  | @group paths es hpath hnodup hkeys _ ih =>
    obtain ⟨es', rfl, heach⟩ := renderNode_map_eq_ok.mp hy
    have hsame : es'.map (·.1) = es.map (·.1) :=
      keys_of_forall₂ (R := fun a b => renderNode theme a = .ok b) heach
    refine .group hpath (hsame ▸ hnodup) (hsame ▸ hkeys) fun k y hky => ?_
    obtain ⟨⟨key, x⟩, hx, rfl, hr⟩ := exists_left_of_forall₂ heach hky
    exact ih k x hx hr

/-- Writing the leaves of a tree as tokens keeps how it branches. -/
theorem dtcg (h : x.Branches paths) : (toDtcg x).Branches paths := by
  induction h with
  | leaf v => exact .leaf _
  | @group paths es hpath hnodup hkeys _ ih =>
    have hsame : (entriesToDtcg es).map (·.1) = es.map (·.1) := by
      simp [entriesToDtcg_eq_map, Function.comp_def]
    rw [toDtcg]
    refine .group hpath (hsame ▸ hnodup) (hsame ▸ hkeys) fun k y hky => ?_
    rw [entriesToDtcg_eq_map] at hky
    obtain ⟨⟨key, x⟩, hx, he⟩ := List.mem_map.mp hky
    obtain ⟨rfl, rfl⟩ : key = .text k ∧ toDtcg x = y := by simpa using he
    exact ih k x hx

/-- Where siblings stay apart, a tree with keys in camel case branches along the paths with keys in
camel case. -/
theorem camelize (h : x.Branches paths) (hapart : CamelApart paths) :
    (camelizeKeys x).Branches (camelPath '' paths) := by
  induction h with
  | leaf v =>
    rw [Set.image_singleton]
    exact .leaf _
  | @group paths es hpath hnodup hkeys _ ih =>
    have htext : ∀ key ∈ es.map (·.1), ∃ k, key = .text k ∧ (pathsBelow k paths).Nonempty :=
      fun key => (hkeys key).mp
    rw [camelizeKeys, ofEntries_camelizeEntries htext hnodup hapart]
    refine .group ?_ (camelizeEntries_nodup htext hnodup hapart) (fun key => ?_) fun l y hy => ?_
    · rintro ⟨path, hp, he⟩
      exact hpath (List.map_eq_nil_iff.mp he ▸ hp)
    · rw [List.mem_map]
      constructor
      · rintro ⟨e, he, rfl⟩
        obtain ⟨k, x, -, hk, rfl⟩ := (mem_camelizeEntries htext).mp he
        refine ⟨toCamel k, rfl, ?_⟩
        rw [pathsBelow_camelPath hapart hk]
        exact hk.image camelPath
      · rintro ⟨l, rfl, rest, path, hp, he⟩
        obtain ⟨k, tail, rfl, rfl, rfl⟩ := List.map_eq_cons_iff.mp he
        have hk : (pathsBelow k paths).Nonempty := ⟨tail, hp⟩
        obtain ⟨⟨key, x⟩, hx, rfl⟩ := List.mem_map.mp ((hkeys (.text k)).mpr ⟨k, rfl, hk⟩)
        exact ⟨_, (mem_camelizeEntries htext).mpr ⟨k, x, hx, hk, rfl⟩, rfl⟩
    · obtain ⟨k, x, hx, hk, he⟩ := (mem_camelizeEntries htext).mp hy
      obtain ⟨rfl, rfl⟩ : l = toCamel k ∧ y = camelizeKeys x := by simpa using he
      rw [pathsBelow_camelPath hapart hk]
      exact ih k x hx (hapart.below k)

end Value.Branches

namespace VariableSet

/-- The paths of the variables. -/
def paths (s : VariableSet) : Set (List String) := {path | ∃ v ∈ s.toList, v.path = path}

theorem leaves_paths (s : VariableSet) : {path | ∃ v, (path, v) ∈ s.leaves} = s.paths := by
  ext path
  simp only [Set.mem_ofPred_eq, mem_leaves, paths]
  constructor
  · rintro ⟨x, v, hv, hpath, -⟩
    exact ⟨v, hv, hpath⟩
  · rintro ⟨v, hv, hpath⟩
    exact ⟨v.value, v, hv, hpath, rfl⟩

/-- All tree forms of a mode branch along paths: its tree, and where that can be rendered, the tree as
tokens and, if siblings stay apart, the tree with keys in camel case. -/
structure BranchesAlong [Platform] (s : VariableSet) (paths : Set (List String)) : Prop where
  tree : ∃ tree, s.tree = .ok tree ∧ tree.Branches paths
  dtcg : ∀ tree, s.renderTree = .ok tree → (toDtcg tree).Branches paths
  camel : CamelApart paths → ∀ tree, s.renderTree = .ok tree →
    (camelizeKeys tree).Branches (camelPath '' paths)

theorem Coherent.branchesAlong [Platform] {s : VariableSet} (h : s.Coherent) :
    s.BranchesAlong s.paths := by
  obtain ⟨es, htree, harr⟩ := h.tree
  have hbranches : (Value.map es).Branches s.paths := s.leaves_paths ▸ harr.comprises.branches
  have hrendered : ∀ tree, s.renderTree = .ok tree → tree.Branches s.paths := by
    intro tree hrender
    rw [renderTree, htree] at hrender
    exact hbranches.render hrender
  exact ⟨⟨_, htree, hbranches⟩, fun tree hrender => (hrendered tree hrender).dtcg,
    fun hapart tree hrender => (hrendered tree hrender).camelize hapart⟩

end VariableSet

namespace ModeSet

/-- All modes have variables at the same paths. -/
def SamePaths (m : ModeSet) : Prop := ∀ a ∈ m.modes, ∀ b ∈ m.modes, a.2.paths = b.2.paths

/-- A name that two modes define has the same path in both. -/
def SpellsAlike (m : ModeSet) : Prop :=
  ∀ a ∈ m.modes, ∀ b ∈ m.modes, ∀ v ∈ a.2.toList, ∀ w ∈ b.2.toList, v.name = w.name →
    v.path = w.path

instance (m : ModeSet) : Decidable m.SpellsAlike :=
  inferInstanceAs (Decidable (∀ a ∈ m.modes, ∀ b ∈ m.modes, ∀ v ∈ a.2.toList, ∀ w ∈ b.2.toList,
    v.name = w.name → v.path = w.path))

namespace SameNames

variable {m : ModeSet}

/-- The variable of another mode that a variable of one mode stands for. -/
theorem exists_variable (h : m.SameNames) {a b : String × VariableSet} (ha : a ∈ m.modes)
    (hb : b ∈ m.modes) {v : Variable} (hv : v ∈ a.2.toList) : ∃ w ∈ b.2.toList, w.name = v.name :=
  List.mem_map.mp ((h a ha b hb v.name).mp (List.mem_map.mpr ⟨v, hv, rfl⟩))

theorem samePaths (h : m.SameNames) (halike : m.SpellsAlike) : m.SamePaths := by
  have hsub : ∀ a ∈ m.modes, ∀ b ∈ m.modes, a.2.paths ⊆ b.2.paths := by
    rintro a ha b hb _ ⟨v, hv, rfl⟩
    obtain ⟨w, hw, hname⟩ := h.exists_variable ha hb hv
    exact ⟨w, hw, halike b hb a ha w hw v hv hname⟩
  exact fun a ha b hb => Set.Subset.antisymm (hsub a ha b hb) (hsub b hb a ha)

end SameNames

/-- Only sets that building operations reach are added. -/
def Operation.IsBuilt : Operation → Prop
  | .add _ s => ∃ mode typePrefix strict ops, s = (VariableSet.empty mode typePrefix strict).run ops
  | _ => True

/-- What every operation keeps of the modes that are built: their sets are coherent and have the
prefix of the type. -/
structure Built (m : ModeSet) : Prop where
  coherent : ∀ mode ∈ m.modes, mode.2.Coherent
  typePrefix_eq : ∀ mode ∈ m.modes, mode.2.typePrefix = m.typePrefix

theorem empty_built (type typePrefix : String) (baseline : Baseline) :
    (empty type typePrefix baseline).Built := ⟨by simp [empty], by simp [empty]⟩

namespace Built

variable {m : ModeSet}

theorem perform (h : m.Built) {op : Operation} (hop : op.IsBuilt) : (m.perform op).Built := by
  have hchange : ∀ (s : VariableSet) (change : VariableSet.Operation),
      s.Coherent ∧ s.typePrefix = m.typePrefix →
        (s.perform change).Coherent ∧ (s.perform change).typePrefix = m.typePrefix :=
    fun s change hs => ⟨hs.1.run [change], (s.perform_mode_typePrefix change).2.trans hs.2⟩
  have hadd : ∀ name s, op = .add name s → s.typePrefix = m.typePrefix → s.mode = name →
      s.Coherent ∧ s.typePrefix = m.typePrefix := by
    rintro name s rfl htype -
    obtain ⟨mode, typePrefix, strict, ops, rfl⟩ := hop
    exact ⟨(VariableSet.empty_coherent mode typePrefix strict).run ops, htype⟩
  have hmodes := perform_modes (P := fun _ s => s.Coherent ∧ s.typePrefix = m.typePrefix)
    (fun _ => hchange) (fun mode hmode => ⟨h.coherent mode hmode, h.typePrefix_eq mode hmode⟩)
    op hadd
  rw [← (m.perform_frame op).1] at hmodes
  exact ⟨fun mode hmode => (hmodes mode hmode).1, fun mode hmode => (hmodes mode hmode).2⟩

theorem run (h : m.Built) {ops : List Operation} (hops : ∀ op ∈ ops, op.IsBuilt) :
    (m.run ops).Built := by
  induction ops generalizing m with
  | nil => exact h
  | cons op rest ih =>
    have hop := hops op List.mem_cons_self
    exact ih (h.perform hop) fun next hnext => hops next (List.mem_cons_of_mem _ hnext)

theorem name_eq (h : m.Built) {a : String × VariableSet} (ha : a ∈ m.modes) {v : Variable}
    (hv : v ∈ a.2.toList) : v.name = fullName m.typePrefix v.path := by
  rw [(h.coherent a ha).name_eq v hv, VariableSet.nameAt, h.typePrefix_eq a ha]

theorem same_dottedPaths (h : m.Built) (hsame : m.SameNames) {a b : String × VariableSet}
    (ha : a ∈ m.modes) (hb : b ∈ m.modes) :
    dottedPath '' a.2.paths = dottedPath '' b.2.paths := by
  have hsub : ∀ a ∈ m.modes, ∀ b ∈ m.modes, dottedPath '' a.2.paths ⊆ dottedPath '' b.2.paths := by
    rintro a ha b hb _ ⟨_, ⟨v, hv, rfl⟩, rfl⟩
    obtain ⟨w, hw, hname⟩ := hsame.exists_variable ha hb hv
    rw [h.name_eq hb hw, h.name_eq ha hv] at hname
    exact ⟨w.path, ⟨w, hw, rfl⟩, dottedPath_eq_of_fullName_eq hname⟩
  exact Set.Subset.antisymm (hsub a ha b hb) (hsub b hb a ha)

/-- Modes with the same paths spell every name alike. -/
theorem spellsAlike (h : m.Built) (hpaths : m.SamePaths) : m.SpellsAlike := by
  intro a ha b hb v hv w hw hname
  have hv' : v.path ∈ b.2.paths := hpaths a ha b hb ▸ ⟨v, hv, rfl⟩
  obtain ⟨u, hu, hpath⟩ := hv'
  have hun : u.name = v.name := by rw [h.name_eq hb hu, h.name_eq ha hv, hpath]
  rw [← (h.coherent b hb).eq_of_name_eq hu hw (hun.trans hname), hpath]

/-- Without dots in the segments a name has one path. -/
theorem spellsAlike_of_dotFree (h : m.Built)
    (hdots : ∀ a ∈ m.modes, ∀ path ∈ a.2.paths, DotFree path) : m.SpellsAlike := by
  intro a ha b hb v hv w hw hname
  have hp := (h.coherent a ha).path_ne_nil v hv
  have hq := (h.coherent b hb).path_ne_nil w hw
  rw [h.name_eq ha hv, h.name_eq hb hw] at hname
  exact fullName_inj hp hq (hdots a ha _ ⟨v, hv, rfl⟩) (hdots b hb _ ⟨w, hw, rfl⟩) hname

end Built

/-- Interchangeable modes, after any run of operations in which only built sets are added. The tree
forms of every mode branch along the paths of its variables, so where all modes have the same paths
their trees have one shape. Modes that are found valid have the same dotted paths; they have the same
paths exactly if no name is spelled along two paths, which needs a dot in some key. -/
theorem run_interchange [Platform] (type typePrefix : String) (baseline : Baseline)
    (ops : List Operation) (hbuilt : ∀ op ∈ ops, op.IsBuilt) :
    let m := (empty type typePrefix baseline).run ops
    (∀ a ∈ m.modes, a.2.BranchesAlong a.2.paths) ∧
    (m.SamePaths → ∀ a ∈ m.modes, ∀ b ∈ m.modes, b.2.BranchesAlong a.2.paths) ∧
    (m.validate.2.isValid = true →
      (∀ a ∈ m.modes, ∀ b ∈ m.modes, dottedPath '' a.2.paths = dottedPath '' b.2.paths) ∧
      (m.SamePaths ↔ m.SpellsAlike) ∧
      ((∀ a ∈ m.modes, ∀ path ∈ a.2.paths, DotFree path) → m.SamePaths)) := by
  intro m
  have hm : m.Built := (empty_built type typePrefix baseline).run hbuilt
  refine ⟨fun a ha => (hm.coherent a ha).branchesAlong, fun hpaths a ha b hb => ?_, fun hvalid => ?_⟩
  · rw [hpaths a ha b hb]
    exact (hm.coherent b hb).branchesAlong
  · have hsame : m.SameNames := (validate_isValid.mp hvalid).2
    exact ⟨fun a ha b hb => hm.same_dottedPaths hsame ha hb,
      ⟨hm.spellsAlike, hsame.samePaths⟩,
      fun hdots => hsame.samePaths (hm.spellsAlike_of_dotFree hdots)⟩

/-- The addition of a light and a dark mode. -/
def lightAndDark (light dark : List (Value × Value)) : List Operation :=
  [.add "light" ((VariableSet.empty "light" "colors" true).run [.add (.map light)]),
    .add "dark" ((VariableSet.empty "dark" "colors" true).run [.add (.map dark)])]

theorem lightAndDark_isBuilt (light dark : List (Value × Value)) :
    ∀ op ∈ lightAndDark light dark, op.IsBuilt := by
  simp only [lightAndDark, List.forall_mem_cons, List.not_mem_nil, false_implies, implies_true,
    and_true]
  exact ⟨⟨_, _, _, _, rfl⟩, ⟨_, _, _, _, rfl⟩⟩

/-- Modes that declare their variables in another order. -/
def reordered : ModeSet :=
  (empty "colors" "colors" .unset).run <| lightAndDark
    [(.text "fg", .map [(.text "on-dark", .text "#fff"), (.text "on-light", .text "#000")]),
      (.text "gap", .int 4)]
    [(.text "gap", .int 8),
      (.text "fg", .map [(.text "on-light", .text "#111"), (.text "on-dark", .ref "gap")])]

theorem run_interchange_reordered :
    reordered.validate.2.isValid = true ∧ reordered.SamePaths ∧
      ∀ a ∈ reordered.modes, ∀ b ∈ reordered.modes, b.2.BranchesAlong a.2.paths := by
  have hvalid : reordered.validate.2.isValid = true := by rfl
  have hdots : ∀ a ∈ reordered.modes, ∀ v ∈ a.2.toList, DotFree v.path := by decide +kernel
  obtain ⟨-, hbranches, hparity⟩ := run_interchange "colors" "colors" .unset (lightAndDark _ _)
    (lightAndDark_isBuilt _ _)
  have hpaths : reordered.SamePaths := (hparity hvalid).2.2 fun a ha path hpath => by
    obtain ⟨v, hv, rfl⟩ := hpath
    exact hdots a ha v hv
  exact ⟨hvalid, hpaths, hbranches hpaths⟩

/-- Modes that give one name to a dotted key and to a nested path. -/
def respelled : ModeSet :=
  (empty "colors" "colors" .unset).run <| lightAndDark
    [(.text "a.b", .int 1)] [(.text "a", .map [(.text "b", .int 1)])]

/-- Modes with siblings that become one in camel case, in another order. -/
def colliding : ModeSet :=
  (empty "colors" "colors" .unset).run <| lightAndDark
    [(.text "x-y", .int 1), (.text "xY", .map [(.text "z", .int 2)])]
    [(.text "xY", .map [(.text "z", .int 2)]), (.text "x-y", .int 1)]

/-- Valid modes may have different paths, and trees that differ in camel case though the paths are the
same: of two siblings that become one the last remains. -/
theorem run_interchange_respelled :
    respelled.validate.2.isValid = true ∧ ¬ respelled.SamePaths ∧
    respelled.modes.map (fun a => a.2.tree) =
      [.ok (.map [(.text "a.b", .int 1)]), .ok (.map [(.text "a", .map [(.text "b", .int 1)])])] ∧
    colliding.validate.2.isValid = true ∧ colliding.SamePaths ∧
    colliding.modes.map (fun a => a.2.renderTree.map camelizeKeys) =
      [.ok (.map [(.text "xY", .map [(.text "z", .int 2)])]), .ok (.map [(.text "xY", .int 1)])] := by
  have hvalid : colliding.validate.2.isValid = true := by rfl
  refine ⟨by rfl, fun hpaths => ?_, by rfl, hvalid, ?_, by rfl⟩
  · have hbuilt : respelled.Built :=
      (empty_built "colors" "colors" .unset).run (lightAndDark_isBuilt _ _)
    have hnot : ¬ respelled.SpellsAlike := by decide +kernel
    exact hnot (hbuilt.spellsAlike hpaths)
  · have halike : colliding.SpellsAlike := by decide +kernel
    have hsame : colliding.SameNames := (validate_isValid.mp hvalid).2
    exact hsame.samePaths halike

end ModeSet

end DesignTokens
