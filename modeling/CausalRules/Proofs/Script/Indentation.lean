import CausalRules.Proofs.Script.Rendered

/-!
# Indentation

In a Python script the lines of a block are one level deeper than the line with the colon that opens
it, and no other line is followed by a deeper one.

- `indentation`, `Opens`, `WellNested`: the lines of a text, and when they are blocks.
- `BlockText`: a text of such lines in parts that begin at one level.
- `IsStatement`, `IsHeader`, `Suite`: the grammar of blocks, over lines that are kept with their
  depths. `Suite.append` and `Suite.block` put them together.
- `Suite.blockText`: the text of suites is made of blocks.
-/

namespace CausalRules.Script

/-! ## The lines of a text -/

/-- The number of spaces that a line begins with. -/
def indentation (line : String) : Nat :=
  (line.toList.takeWhile (· = ' ')).length

/-- A line ends in a colon. -/
def Opens (line : String) : Prop :=
  line.toList.getLast? = some ':'

instance : DecidablePred Opens := fun line =>
  inferInstanceAs (Decidable (line.toList.getLast? = some ':'))

/-- What may stand after a line: exactly one level deeper if the line opens a block, and otherwise
no deeper. A line that opens a block is not the last one. -/
def Leads (line : String) : Option String → Prop
  | some next =>
    if Opens line then indentation next = indentation line + 4
    else indentation next ≤ indentation line
  | none => ¬ Opens line

/-- After every line stands what may stand there. -/
def WellNested : List String → Prop
  | [] => True
  | line :: rest => Leads line rest.head? ∧ WellNested rest

instance Leads.decidable : (line : String) → (next : Option String) → Decidable (Leads line next)
  | line, some next => inferInstanceAs (Decidable (if Opens line then
      indentation next = indentation line + 4 else indentation next ≤ indentation line))
  | line, none => inferInstanceAs (Decidable (¬ Opens line))

instance WellNested.decidable : (lines : List String) → Decidable (WellNested lines)
  | [] => .isTrue trivial
  | line :: rest =>
    have := decidable rest
    inferInstanceAs (Decidable (Leads line rest.head? ∧ WellNested rest))

/-- Lines with their line ends. -/
def linesText (lines : List String) : String :=
  String.join (lines.map (· ++ "\n"))

/-- A text of blocks, in parts that begin at a level of their own. -/
structure BlockText (base : Nat) (parts : List (List String)) (text : String) : Prop where
  text_eq : text = linesText parts.flatten
  /-- Lines end only where they are put together. -/
  ended : ∀ line ∈ parts.flatten, '\n' ∉ line.toList
  levels : ∀ line ∈ parts.flatten, 4 ∣ indentation line
  nested : WellNested parts.flatten
  begins : ∀ part ∈ parts, ∃ first rest, part = first :: rest ∧ indentation first = base

/-! ## Statements and headers -/

/-- A text begins with a character that is no space. -/
def Flush (text : String) : Prop :=
  text.toList.head?.any (· ≠ ' ') = true

instance : DecidablePred Flush := fun text =>
  inferInstanceAs (Decidable (text.toList.head?.any (· ≠ ' ') = true))

/-- A line that opens no block, without its indentation. -/
structure IsStatement (text : String) : Prop where
  flush : Flush text
  closed : ¬ Opens text

/-- A line that opens a block, without its indentation. -/
structure IsHeader (text : String) : Prop where
  flush : Flush text
  opens : Opens text

section Texts

variable {before after text : String}

instance : Decidable (IsStatement text) :=
  decidable_of_iff (Flush text ∧ ¬ Opens text) ⟨fun h => ⟨h.1, h.2⟩, fun h => ⟨h.1, h.2⟩⟩

instance : Decidable (IsHeader text) :=
  decidable_of_iff (Flush text ∧ Opens text) ⟨fun h => ⟨h.1, h.2⟩, fun h => ⟨h.1, h.2⟩⟩

theorem Flush.exists_cons (h : Flush text) : ∃ c rest, text.toList = c :: rest ∧ c ≠ ' ' := by
  unfold Flush at h
  cases htext : text.toList with
  | nil =>
    rw [htext] at h
    cases h
  | cons c rest =>
    rw [htext] at h
    exact ⟨c, rest, rfl, of_decide_eq_true h⟩

theorem Flush.head_ne (h : Flush text) : ¬ text.toList.head? = some ' ' := by
  obtain ⟨c, rest, htext, hc⟩ := h.exists_cons
  rw [htext]
  exact fun hspace => hc (Option.some.inj hspace)

theorem flush_of_cons {c : Char} {rest : List Char} (h : text.toList = c :: rest) (hc : c ≠ ' ') :
    Flush text := by
  rw [Flush, h]
  exact decide_eq_true hc

theorem Flush.append (h : Flush before) (after : String) : Flush (before ++ after) := by
  obtain ⟨c, rest, hbefore, hc⟩ := h.exists_cons
  have happend : (before ++ after).toList = c :: (rest ++ after.toList) := by
    rw [String.toList_append, hbefore, List.cons_append]
  exact flush_of_cons happend hc

/-- What a line ends in is what its last part ends in. -/
theorem opens_append (hafter : Flush after) : Opens (before ++ after) ↔ Opens after := by
  obtain ⟨c, rest, hafter, -⟩ := hafter.exists_cons
  rw [Opens, Opens, String.toList_append, hafter, List.getLast?_append,
    List.getLast?_eq_some_getLast (List.cons_ne_nil c rest), Option.some_or]

theorem Flush.isStatement (h : Flush before) (hafter : IsStatement after) :
    IsStatement (before ++ after) :=
  ⟨h.append after, fun hopens => hafter.closed ((opens_append hafter.flush).mp hopens)⟩

theorem Flush.isHeader (h : Flush before) (hafter : IsHeader after) : IsHeader (before ++ after) :=
  ⟨h.append after, (opens_append hafter.flush).mpr hafter.opens⟩

end Texts

/-! ## Lines with their depths -/

/-- A line with its indentation, without its line end. -/
def Line.raw (line : Line) : String :=
  line.margin ++ line.text

theorem Line.toList_raw (line : Line) :
    line.raw.toList = List.replicate (4 * line.depth) ' ' ++ line.text.toList := by
  rw [raw, String.toList_append, toList_margin]

theorem Line.raw_zero (text : String) : raw ⟨0, text⟩ = text :=
  String.empty_append

theorem Line.renderAll_eq_linesText (lines : List Line) :
    renderAll lines = linesText (lines.map raw) := by
  rw [renderAll_eq_join, linesText, List.map_map]
  rfl

theorem indentation_raw {line : Line} (h : Flush line.text) :
    indentation line.raw = 4 * line.depth := by
  obtain ⟨c, rest, htext, hc⟩ := h.exists_cons
  have hspaces : ∀ d ∈ List.replicate (4 * line.depth) ' ', decide (d = ' ') = true :=
    fun d hd => decide_eq_true (List.eq_of_mem_replicate hd)
  rw [indentation, Line.toList_raw, htext, List.takeWhile_append_of_pos hspaces,
    List.takeWhile_cons_of_neg (by simpa using hc), List.append_nil, List.length_replicate]

theorem opens_raw {line : Line} (h : Flush line.text) : Opens line.raw ↔ Opens line.text :=
  opens_append h

/-- The lines of a block at a depth: statements, and headers with their own blocks one level
deeper. -/
inductive Suite : Nat → List Line → Prop
  | nil {d : Nat} : Suite d []
  | simple {d : Nat} {text : String} {rest : List Line} (statement : IsStatement text)
      (others : Suite d rest) : Suite d (⟨d, text⟩ :: rest)
  | compound {d : Nat} {text : String} {body rest : List Line} (header : IsHeader text)
      (some_line : body ≠ []) (inside : Suite (d + 1) body) (others : Suite d rest) :
      Suite d (⟨d, text⟩ :: (body ++ rest))

namespace Suite

variable {α : Type} {d : Nat} {lines more : List Line}

theorem statement {text : String} (h : IsStatement text) : Suite d [⟨d, text⟩] :=
  .simple h .nil

theorem block {text : String} {body : List Line} (h : IsHeader text) (hbody : body ≠ [])
    (inside : Suite (d + 1) body) : Suite d (⟨d, text⟩ :: body) := by
  rw [← List.append_nil body]
  exact .compound h hbody inside .nil

theorem append (h : Suite d lines) (hmore : Suite d more) : Suite d (lines ++ more) := by
  induction h with
  | nil => exact hmore
  | simple hstatement _ ih => exact .simple hstatement (ih hmore)
  | @compound d text body rest hheader hbody inside _ _ ih =>
    rw [List.cons_append, List.append_assoc]
    exact .compound hheader hbody inside (ih hmore)

theorem flatMap {f : α → List Line} {as : List α} (h : ∀ a ∈ as, Suite d (f a)) :
    Suite d (as.flatMap f) := by
  induction as with
  | nil => exact .nil
  | cons a as ih =>
    obtain ⟨ha, has⟩ := List.forall_mem_cons.mp h
    rw [List.flatMap_cons]
    exact ha.append (ih has)

/-- Statements one after the other. -/
theorem statements {f : α → String} {as : List α} (h : ∀ a ∈ as, IsStatement (f a)) :
    Suite d (as.map fun a => ⟨d, f a⟩) := by
  rw [List.map_eq_flatMap]
  exact flatMap fun a ha => statement (h a ha)

theorem flush (h : Suite d lines) : ∀ line ∈ lines, Flush line.text := by
  induction h with
  | nil => exact List.forall_mem_nil _
  | simple hstatement _ ih => exact List.forall_mem_cons.mpr ⟨hstatement.flush, ih⟩
  | compound hheader _ _ _ ihbody ihrest =>
    exact List.forall_mem_cons.mpr ⟨hheader.flush, List.forall_mem_append.mpr ⟨ihbody, ihrest⟩⟩

/-- No line of a block is less deep than the block. -/
theorem le_depth (h : Suite d lines) : ∀ line ∈ lines, d ≤ line.depth := by
  induction h with
  | nil => exact List.forall_mem_nil _
  | simple _ _ ih => exact List.forall_mem_cons.mpr ⟨Nat.le_refl _, ih⟩
  | compound _ _ _ _ ihbody ihrest =>
    refine List.forall_mem_cons.mpr ⟨Nat.le_refl _, List.forall_mem_append.mpr ⟨?_, ihrest⟩⟩
    exact fun line hline => Nat.le_of_succ_le (ihbody line hline)

/-- The first line of a block has its depth. -/
theorem depth_of_cons {line : Line} (h : Suite d (line :: lines)) : line.depth = d := by
  cases h with
  | simple | compound => rfl

/-- The first line after a block that is at most as deep as the block. -/
theorem head_le (h : Suite d lines) {after : List String}
    (hafter : ∀ next ∈ after.head?, indentation next ≤ 4 * d) :
    ∀ next ∈ (lines.map Line.raw ++ after).head?, indentation next ≤ 4 * d := by
  cases lines with
  | nil => exact hafter
  | cons line lines =>
    intro next hnext
    obtain rfl := Option.some.inj hnext
    show indentation line.raw ≤ 4 * d
    refine Nat.le_of_eq ?_
    rw [indentation_raw (h.flush line List.mem_cons_self), h.depth_of_cons]

/-- **Blocks are well nested**, also before lines that are no deeper. -/
theorem wellNested_append (h : Suite d lines) {after : List String} (hnested : WellNested after)
    (hafter : ∀ next ∈ after.head?, indentation next ≤ 4 * d) :
    WellNested (lines.map Line.raw ++ after) := by
  induction h generalizing after with
  | nil => exact hnested
  | @simple d text rest hstatement others ih =>
    refine ⟨?_, ih hnested hafter⟩
    have hclosed : ¬ Opens (Line.raw ⟨d, text⟩) := fun hopens =>
      hstatement.closed ((@opens_raw ⟨d, text⟩ hstatement.flush).mp hopens)
    cases hnext : (rest.map Line.raw ++ after).head? with
    | none => exact hclosed
    | some next =>
      show if Opens (Line.raw ⟨d, text⟩) then _ else _
      rw [if_neg hclosed, @indentation_raw ⟨d, text⟩ hstatement.flush]
      exact others.head_le hafter next hnext
  | @compound d text body rest hheader hbody inside others ihbody ihrest =>
    -- what follows the inner block is as deep as the header at most
    have hrest := others.head_le hafter
    rw [List.map_cons, List.map_append, List.cons_append, List.append_assoc]
    refine ⟨?_, ihbody (ihrest hnested hafter) fun next hnext => ?_⟩
    · obtain ⟨first, inner, rfl⟩ := List.exists_cons_of_ne_nil hbody
      have hopens : Opens (Line.raw ⟨d, text⟩) :=
        (@opens_raw ⟨d, text⟩ hheader.flush).mpr hheader.opens
      have hindent : indentation (Line.raw ⟨d, text⟩) = 4 * d :=
        @indentation_raw ⟨d, text⟩ hheader.flush
      show if Opens (Line.raw ⟨d, text⟩) then
        indentation first.raw = indentation (Line.raw ⟨d, text⟩) + 4 else _
      rw [if_pos hopens, hindent, indentation_raw (inside.flush first List.mem_cons_self),
        inside.depth_of_cons]
      omega
    · have hle := hrest next hnext
      omega

theorem wellNested (h : Suite d lines) : WellNested (lines.map Line.raw) := by
  rw [← List.append_nil (lines.map Line.raw)]
  exact h.wellNested_append trivial fun next hnext => by cases hnext

/-- A line is one level deeper exactly after a colon. -/
example : WellNested ["if a:", "    b", "c"] ∧ ¬ WellNested ["if a:", "b"] ∧
    ¬ WellNested ["a", "    b"] := by
  decide

/-- **The text of suites is made of blocks**, one part for each suite. -/
theorem blockText {suites : List (List Line)} (h : ∀ lines ∈ suites, Suite d lines)
    (hsome : ∀ lines ∈ suites, lines ≠ [])
    (hended : ∀ lines ∈ suites, ∀ line ∈ lines, Over (· ≠ '\n') line.text) :
    BlockText (4 * d) (suites.map (List.map Line.raw)) (Line.renderAll suites.flatten) := by
  have hflat : (suites.map (List.map Line.raw)).flatten = suites.flatten.map Line.raw :=
    List.map_flatten.symm
  have hall : Suite d suites.flatten := by
    rw [← List.flatMap_id]
    exact flatMap h
  refine ⟨?_, ?_, ?_, ?_, ?_⟩
  · rw [hflat, Line.renderAll_eq_linesText]
  · rw [hflat, List.forall_mem_map]
    intro line hline hmem
    obtain ⟨lines, hlines, hline⟩ := List.mem_flatten.mp hline
    rw [Line.toList_raw] at hmem
    rcases List.mem_append.mp hmem with hmem | hmem
    · exact absurd (List.eq_of_mem_replicate hmem) (by decide)
    · exact hended lines hlines line hline '\n' hmem rfl
  · rw [hflat, List.forall_mem_map]
    intro line hline
    rw [indentation_raw (hall.flush line hline)]
    exact Nat.dvd_mul_right 4 _
  · rw [hflat]
    exact hall.wellNested
  · rw [List.forall_mem_map]
    intro lines hlines
    obtain ⟨first, rest, rfl⟩ := List.exists_cons_of_ne_nil (hsome lines hlines)
    refine ⟨first.raw, rest.map Line.raw, rfl, ?_⟩
    rw [indentation_raw ((h _ hlines).flush first List.mem_cons_self), (h _ hlines).depth_of_cons]

end Suite

end CausalRules.Script
