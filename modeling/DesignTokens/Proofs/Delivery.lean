import DesignTokens.CommandLine.Run
import DesignTokens.Proofs.Emission

/-! Whether what passes the gate is delivered. In an empty directory no step of writing meets a file
in the place of a folder, so a type is written in a format exactly if the format can express its
modes, and its ledgers are written always. -/
namespace DesignTokens

namespace OutputFormat

theorem isFileName_name (f : OutputFormat) : IsFileName f.name := by
  cases f <;> decide

theorem isFileName_fileName (f : OutputFormat) {mode : String} (h : IsFileName mode) :
    IsFileName (f.fileName mode) := by
  have hslash := h.not_slash
  have hnull := h.not_null
  have hplain : ∀ s : String, toString s = s := fun _ => rfl
  apply isFileName_of_long <;> cases f <;> simp [fileName, hplain, hslash, hnull]

end OutputFormat

theorem LedgerKind.isFileName_name (kind : LedgerKind) : IsFileName kind.name := by
  cases kind <;> decide

/-- The folders of outputs: one for each format, with one inside it for each type, and one for each
kind of ledger. -/
def outputPlan (types : List String) (htypes : ∀ type ∈ types, IsFileName type) : Plan where
  Folder rel := (∃ f : OutputFormat, rel = [f.name] ∨ ∃ type ∈ types, rel = [f.name, type]) ∨
    ∃ kind : LedgerKind, rel = [kind.name]
  closed := by
    intro rel name hfolder hrel
    obtain ⟨f, hone | ⟨type, -, htwo⟩⟩ | ⟨kind, hone⟩ := hfolder
    · have hlength := congrArg List.length hone
      exact absurd (List.length_eq_zero_iff.mp (by simpa using hlength)) hrel
    · have hsplit : rel ++ [name] = [f.name] ++ [type] := htwo
      obtain ⟨rfl, -⟩ := List.append_inj' hsplit rfl
      exact Or.inl ⟨f, Or.inl rfl⟩
    · have hlength := congrArg List.length hone
      exact absurd (List.length_eq_zero_iff.mp (by simpa using hlength)) hrel
  proper := by
    intro rel hfolder
    obtain ⟨f, rfl | ⟨type, htype, rfl⟩⟩ | ⟨kind, rfl⟩ := hfolder
    · simpa using f.isFileName_name
    · simpa using ⟨f.isFileName_name, htypes type htype⟩
    · simpa using kind.isFileName_name

section Laying

variable {types : List String} {htypes : ∀ type ∈ types, IsFileName type} {out : Path}
  {base : List String} {t : FileTree}

theorem not_folder_of_length {rel : List String} (h : 2 < rel.length) :
    ¬ (outputPlan types htypes).Folder rel := by
  rintro (⟨f, rfl | ⟨type, -, rfl⟩⟩ | ⟨kind, rfl⟩) <;> simp at h

theorem format_name_ne_kind_name (f : OutputFormat) (kind : LedgerKind) : f.name ≠ kind.name := by
  cases f <;> cases kind <;> decide

namespace OutputFormat

variable {f : OutputFormat} {type : String}

theorem directory_eq (f : OutputFormat) (out : Path) (h : IsFileName type) :
    f.directory out type = ⟨out.root, out.names ++ [f.name, type]⟩ := by
  rw [directory, f.isFileName_name.div, h.div]
  simp

theorem file_eq {name : String} (f : OutputFormat) (out : Path) (h : IsFileName type)
    (hname : IsFileName name) :
    f.directory out type / name = ⟨out.root, out.names ++ ([f.name, type] ++ [name])⟩ := by
  rw [directory_eq f out h, hname.div]
  simp

/-- A type whose modes all have texts in a format is written in it. -/
theorem exists_yields_write [Platform] {namespaceName : Value} {m : ModeSet}
    (h : (outputPlan types htypes).Laid out base t) (htype : m.type ∈ types)
    (hnames : ∀ mode ∈ m.modes, IsFileName mode.1)
    (htexts : ∀ mode ∈ m.modes, ∃ text, f.modeText namespaceName m mode.1 mode.2 = .ok text) :
    ∃ written t', (f.write namespaceName m out).Yields t written t' ∧
      (outputPlan types htypes).Laid out base t' := by
  have hproper := htypes _ htype
  have hfolder : (outputPlan types htypes).Folder [f.name, m.type] :=
    Or.inl ⟨f, Or.inr ⟨m.type, htype, rfl⟩⟩
  have hfile : ∀ name text t, IsFileName name → (outputPlan types htypes).Laid out base t →
      Plan.Reaches out base [f.name, m.type] t →
      ∃ t', t.write (f.directory out m.type / name) text = .ok t' ∧
        (outputPlan types htypes).Laid out base t' ∧
        Plan.Reaches out base [f.name, m.type] t' := by
    intro name text t hname hlaid hreach
    rw [file_eq f out hproper hname]
    exact hlaid.write hreach (Plan.proper _ hfolder) hname (not_folder_of_length (by simp)) text
  obtain ⟨t₁, hmade, hlaid₁, hreach₁⟩ := h.ensureDirectories (Or.inr hfolder)
  rw [← directory_eq f out hproper] at hmade
  -- Each mode finds the directory of the type made and no folder in the place of its file.
  have hstep : ∀ mode ∈ m.modes, ∀ t, (outputPlan types htypes).Laid out base t ∧
      Plan.Reaches out base [f.name, m.type] t →
      ∃ written t', (Writing.file (f.directory out m.type / f.fileName mode.1)
        (f.modeText namespaceName m mode.1 mode.2)).Yields t written t' ∧
        (outputPlan types htypes).Laid out base t' ∧
        Plan.Reaches out base [f.name, m.type] t' := by
    intro mode hmode t ht
    obtain ⟨text, htext⟩ := htexts mode hmode
    obtain ⟨t', hwrite, hlaid'⟩ :=
      hfile _ text t (f.isFileName_fileName (hnames mode hmode)) ht.1 ht.2
    exact ⟨_, t', Writing.yields_file.mpr ⟨rfl, text, htext, hwrite⟩, hlaid'⟩
  obtain ⟨modes, t₂, hmodes, hlaid₂, hreach₂⟩ := Writing.mapM_yields
    (I := fun t => (outputPlan types htypes).Laid out base t ∧
      Plan.Reaches out base [f.name, m.type] t) ⟨hlaid₁, hreach₁⟩ hstep
  by_cases hts : f = .ts
  · obtain ⟨t', hindex, hlaid', -⟩ :=
      hfile "index.ts" (scriptIndex m.names) t₂ (by decide) hlaid₂ hreach₂
    refine ⟨modes ++ [f.directory out m.type / "index.ts"], t',
      yields_write.mpr ⟨t₁, modes, t₂, hmade, hmodes, ?_⟩, hlaid'⟩
    rw [if_pos hts]
    exact ⟨hindex, rfl⟩
  · refine ⟨modes, t₂, yields_write.mpr ⟨t₁, modes, t₂, hmade, hmodes, ?_⟩, hlaid₂⟩
    rw [if_neg hts]
    exact ⟨rfl, rfl⟩

end OutputFormat

theorem LedgerResult.exists_yields_write {r : LedgerResult} {type : String}
    (h : (outputPlan types htypes).Laid out base t) (hproper : IsFileName type)
    (hok : r.isOk = true) (hdata : ∀ e ∈ r.entries, Json.IsData e.2) :
    ∃ t', (r.write type out).Yields t (some (r.path type out)) t' ∧
      (outputPlan types htypes).Laid out base t' := by
  have htext : Json.Writable r.entries.toValue := by
    refine .map (fun e he => ?_) fun e he => ?_ <;> obtain ⟨entry, hentry, rfl⟩ := List.mem_map.mp he
    · exact trivial
    · exact (hdata entry hentry).writable
  obtain ⟨s, hs⟩ := exists_jsonText.mpr htext
  have hname : IsFileName s!"{type}.json" := OutputFormat.isFileName_fileName .json hproper
  have hfile : ¬ (outputPlan types htypes).Folder [r.kind.name, s!"{type}.json"] := by
    rintro (⟨f, he | ⟨type', -, he⟩⟩ | ⟨kind, he⟩)
    · simp at he
    · exact format_name_ne_kind_name f r.kind (List.cons.inj he).1.symm
    · simp at he
  obtain ⟨t₁, t', hmade, hwrite, hlaid'⟩ :=
    h.write_in (Or.inr ⟨r.kind, rfl⟩) hname hfile (s ++ "\n")
  exact ⟨t', (yields_write hok).mpr ⟨t₁, s, hmade, hs, hwrite, rfl⟩, hlaid'⟩

namespace TypeResult

/-- A result without errors as it is found by who writes it: it is complete, its modes are rendered,
and its ledgers hold data. -/
structure Ready [Platform] (r : TypeResult) (m : ModeSet) : Prop where
  complete : r.Complete m
  rendered : m.Rendered
  data : ∀ l ∈ r.ledgers, ∀ e ∈ l.entries, Json.IsData e.2

variable [Platform] {r : TypeResult} {m : ModeSet} {formats : List OutputFormat}
  {namespaceName : Value}

/-- A result whose modes can name files and be expressed in all formats is written in them. -/
theorem exists_yields_write (h : (outputPlan types htypes).Laid out base t)
    (htype : r.type ∈ types) (hok : r.isOk = true) (hr : r.Ready m)
    (hnames : ∀ mode ∈ m.modes, IsFileName mode.1)
    (hemits : ∀ mode ∈ m.modes, ∀ f ∈ formats, f.Emits namespaceName m mode) :
    ∃ written t', (r.write formats namespaceName out).Yields t written t' ∧
      (outputPlan types htypes).Laid out base t' := by
  have hproper := htypes _ htype
  obtain ⟨modes, t₁, hmodes, hlaid₁⟩ := Writing.mapM_yields
    (f := fun f => OutputFormat.write f namespaceName m out) h fun f hf t ht =>
      OutputFormat.exists_yields_write ht (hr.complete.type ▸ htype) hnames fun mode hmode =>
        (hr.rendered.exists_modeText hmode f namespaceName).mpr (hemits mode hmode f hf)
  obtain ⟨ledgers, t', hledgers, hlaid'⟩ := Writing.mapM_yields
    (f := fun l => LedgerResult.write l r.type out) hlaid₁ fun l hl t ht =>
      ⟨_, LedgerResult.exists_yields_write ht hproper (hr.complete.ledgers l hl) (hr.data l hl)⟩
  exact ⟨_, t', (yields_write hok hr.complete.modes).mpr ⟨modes, t₁, ledgers, hmodes, hledgers, rfl⟩,
    hlaid'⟩

end TypeResult

namespace Report

theorem exists_jsonText_index (r : Report) : ∃ s, jsonText r.index = .ok s := by
  rw [exists_jsonText, index_eq]
  refine .map (fun e he => ?_) fun e he => ?_ <;> obtain ⟨result, -, rfl⟩ := List.mem_map.mp he
  · exact trivial
  · refine .list fun v hv => ?_
    obtain ⟨mode, -, rfl⟩ := List.mem_map.mp hv
    exact .scalar trivial

/-- A report whose types can be written is written, if the index of script modules takes the place of
no type. -/
theorem exists_yields_write [Platform] {r : Report} {formats : List OutputFormat}
    {namespaceName : Value} (h : (outputPlan types htypes).Laid out base t)
    (hr : ∀ result ∈ r.sound, result.type ∈ types ∧ ∃ m, result.Ready m ∧
      (∀ mode ∈ m.modes, IsFileName mode.1) ∧
      ∀ mode ∈ m.modes, ∀ f ∈ formats, f.Emits namespaceName m mode)
    (hindex : .ts ∈ formats → "index.ts" ∉ types) :
    ∃ written t', (r.write formats namespaceName out).Yields t written t' := by
  obtain ⟨written, t₁, hresults, hlaid₁⟩ := Writing.mapM_yields
    (f := fun result => TypeResult.write result formats namespaceName out) h
    fun result (hmem : result ∈ r.results) t ht => by
      cases hok : result.isOk with
      | false => exact ⟨[], t, (TypeResult.yields_write_of_not_isOk hok).mpr ⟨rfl, rfl⟩, ht⟩
      | true =>
        obtain ⟨htype, m, hready, hnames, hemits⟩ := hr result (List.mem_filter.mpr ⟨hmem, hok⟩)
        exact TypeResult.exists_yields_write ht htype hok hready hnames hemits
  have hscripts : ∃ t₂, (outputPlan types htypes).Laid out base t₂ ∧
      if .ts ∈ formats then ∃ t₁', t₁.ensureDirectories (out / OutputFormat.ts.name) = .ok t₁' ∧
        t₁'.write (scriptIndexPath out) (scriptIndex (r.sound.map (·.type))) = .ok t₂
      else t₁ = t₂ := by
    split
    · next hts =>
      -- Only a type of that name would have its folder in this place.
      have hfile : ¬ (outputPlan types htypes).Folder [OutputFormat.ts.name, "index.ts"] := by
        rintro (⟨f, he | ⟨type, htype, he⟩⟩ | ⟨kind, he⟩)
        · simp at he
        · obtain ⟨-, rfl⟩ : _ ∧ "index.ts" = type := by simpa using he
          exact hindex hts htype
        · simp at he
      obtain ⟨t₁', t₂, hmade, hwrite, hlaid₂⟩ := hlaid₁.write_in (Or.inl ⟨.ts, Or.inl rfl⟩)
        (by decide : IsFileName "index.ts") hfile (scriptIndex (r.sound.map (·.type)))
      exact ⟨t₂, hlaid₂, t₁', hmade, hwrite⟩
    · exact ⟨t₁, hlaid₁, rfl⟩
  obtain ⟨t₂, hlaid₂, hscripts⟩ := hscripts
  obtain ⟨t₃, hmade, hlaid₃, hreach⟩ := hlaid₂.ensureDirectories (Or.inl rfl)
  obtain ⟨s, hs⟩ := r.exists_jsonText_index
  have hname : IsFileName "index.json" := by decide
  have hfile : ¬ (outputPlan types htypes).Folder ([] ++ ["index.json"]) := by
    rintro (⟨f, he | ⟨type, -, he⟩⟩ | ⟨kind, he⟩)
    · cases f <;> simp [OutputFormat.name] at he
    · simp at he
    · cases kind <;> simp [LedgerKind.name] at he
  obtain ⟨t', hwrite, -, -⟩ := hlaid₃.write hreach (by simp) hname hfile (s ++ "\n")
  refine ⟨_, t', yields_write.mpr ⟨written, t₁, t₂, t₃, s, hresults, hscripts, ?_, hs, ?_, rfl⟩⟩
  · simpa using hmade
  · rw [hname.div]
    exact hwrite

end Report

end Laying

theorem isFileName_of_discoverTypes {t : FileTree} {data : Path} {types : List String}
    (ht : t.Sound) (h : discoverTypes t data = .ok types) : ∀ type ∈ types, IsFileName type := by
  intro type htype
  obtain ⟨⟨hempty, hslash⟩, hdots, hdirectory⟩ := mem_discoverTypes ht h htype
  have hhere : type ≠ "." := by
    rintro rfl
    simp at hdots
  have habove : type ≠ ".." := by
    rintro rfl
    simp at hdots
  have hnull : '\x00' ∉ type.toList := by
    obtain ⟨husable, -⟩ := FileTree.find?_of_isDirectory hdirectory
    rw [Path.div_of_proper hempty hslash hhere] at husable
    simp only [FileTree.isUnusable, List.any_append, Bool.or_eq_false_iff, List.any_cons,
      List.any_nil, Bool.or_false, List.contains_eq_mem, decide_eq_false_iff_not] at husable
    exact husable.2
  exact ⟨hempty, hhere, habove, hslash, hnull⟩

theorem LedgerResult.entries_data {t : FileTree} {m : ModeSet} {kind : LedgerKind} {path : Path}
    {l : LedgerResult} (h : check t m kind path = .ok l) : ∀ e ∈ l.entries, Json.IsData e.2 := by
  unfold check at h
  dsimp only at h
  split at h
  · cases h
    simp
  · cases h
  · split at h
    · cases h
      simp
    · cases h
    · next hentries =>
      cases h
      exact Ledger.read_eq_ok hentries

theorem TypeResult.ready_of_isOk [Yaml.Library] [Platform] {t : FileTree} {m : Manifest}
    {directory : Path} {r : TypeResult} (hdir : t.isDirectory directory = true)
    (hbuild : (build t m directory).outcome = .ok r) (hok : r.isOk = true) : ∃ set, r.Ready set := by
  obtain ⟨-, hiff, hgate⟩ := isOk_iff_passes hdir hbuild
  obtain ⟨s, modes, hpasses⟩ := hiff.mp hok
  obtain ⟨configured, hcomplete, hledgers⟩ := hgate s modes hpasses
  refine ⟨_, hcomplete, hpasses.rendered_finished configured, fun l hl => ?_⟩
  obtain ⟨file, -, hcheck⟩ := exists_left_of_forall₂ hledgers hl
  exact LedgerResult.entries_data hcheck

end DesignTokens
