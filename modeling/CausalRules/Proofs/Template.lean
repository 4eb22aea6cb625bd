import CausalRules.Compile
import CausalRules.Proofs.Facility.Spelling
import CausalRules.Proofs.Text.Replace
import Mathlib.Order.Bounds.Basic

/-!
# What the facility script is made of

The two markers of a facility template are replaced one after the other, and the second search runs
over a text that already holds the generated body. It finds the marker of the template all the same:
markers do not overlap, and a generated body neither holds a marker nor forms one with the text
around it.

- `isGreatest_maxEffects`: the number that is put into the script.
- `IsBody`: what begins and ends a generated body and does not stand in it, from which
  `IsBody.stands_outside` follows.
- `Templates.facilityScript_replacesBoth`: the script is the template with both markers replaced at
  once.
-/

namespace CausalRules

open Text (Apart FirstAt ReplacesBoth)

/-! ## The largest number of effects -/

theorem isGreatest_foldl_max (start : Nat) (ns : List Nat) :
    IsGreatest {n | n ∈ start :: ns} (ns.foldl max start) := by
  induction ns generalizing start with
  | nil => exact ⟨List.mem_singleton_self _, fun n hn => (List.mem_singleton.mp hn).le⟩
  | cons n ns ih =>
    obtain ⟨hmem, hupper⟩ := ih (max start n)
    have hmax : max start n ≤ ns.foldl max (max start n) := hupper List.mem_cons_self
    refine ⟨?_, fun m hm => ?_⟩
    · rcases List.mem_cons.mp hmem with hmem | hmem
      · rcases max_choice start n with hchoice | hchoice
        · exact List.mem_cons.mpr (.inl (hmem.trans hchoice))
        · exact List.mem_cons_of_mem _ (List.mem_cons.mpr (.inl (hmem.trans hchoice)))
      · exact List.mem_cons_of_mem _ (List.mem_cons_of_mem _ hmem)
    · rcases List.mem_cons.mp hm with rfl | hm
      · exact (le_max_left _ _).trans hmax
      · rcases List.mem_cons.mp hm with rfl | hm
        · exact (le_max_right _ _).trans hmax
        · exact hupper (List.mem_cons_of_mem _ hm)

/-- The number of effects that is put into a script is the largest. -/
theorem Program.isGreatest_maxEffects {program : Program} (h : program.rules ≠ []) :
    IsGreatest {n | ∃ rule ∈ program.rules, rule.effects.length = n} program.maxEffects := by
  have hfold := isGreatest_foldl_max 0 (program.rules.map (·.effects.length))
  rw [List.foldl_map] at hfold
  obtain ⟨hmem, hupper⟩ := hfold
  have hle : ∀ rule ∈ program.rules, rule.effects.length ≤ program.maxEffects :=
    fun rule hrule => hupper (List.mem_cons_of_mem _ (List.mem_map_of_mem hrule))
  refine ⟨?_, by rintro n ⟨rule, hrule, rfl⟩; exact hle rule hrule⟩
  rcases List.mem_cons.mp hmem with hzero | hmem
  · obtain ⟨rule, hrule⟩ := List.exists_mem_of_ne_nil _ h
    exact ⟨rule, hrule, Nat.le_antisymm (hle rule hrule) (hzero.trans_le (Nat.zero_le _))⟩
  · exact List.mem_map.mp hmem

/-! ## Generated bodies -/

namespace Facility

open Script (Line)

/-- A body is made of indented lines without comments. -/
structure IsBody (body : List Char) : Prop where
  begins : ∃ rest, body = ' ' :: ' ' :: rest
  ends : ∃ rest, body = rest ++ ['\n']
  hashless : '#' ∉ body

theorem IsBody.renderAll {lines : List Line} (hlines : lines ≠ [])
    (hdepth : ∀ line ∈ lines, 0 < line.depth) (hhashless : Hashless (Line.renderAll lines)) :
    IsBody (Line.renderAll lines).toList := by
  refine ⟨?_, ?_, hhashless⟩
  · obtain ⟨line, rest, rfl⟩ := List.exists_cons_of_ne_nil hlines
    have hspaces : 4 * line.depth = 4 * line.depth - 2 + 2 := by
      have := hdepth line List.mem_cons_self
      omega
    rw [Line.renderAll_eq_join, List.map_cons, String.join_cons, Line.render,
      String.toList_append, String.toList_append, String.toList_append, Line.toList_margin, hspaces]
    exact ⟨_, rfl⟩
  · obtain ⟨rest, line, rfl⟩ := List.eq_nil_or_concat lines |>.resolve_left hlines
    rw [Line.renderAll_eq_join, List.concat_eq_append, List.map_append, String.join_append,
      List.map_singleton, String.join_cons, String.join_nil, String.append_empty, Line.render,
      String.toList_append, String.toList_append, ← List.append_assoc]
    exact ⟨_, rfl⟩

theorem Block.lines_ne_nil (block : Block) : block.lines ≠ [] :=
  List.cons_ne_nil _ _

theorem Block.depth_pos {block : Block} : ∀ line ∈ block.lines, 0 < line.depth := by
  unfold Block.lines
  cases block.guard with
  | none => simp
  | some guard =>
    simp only [List.forall_mem_cons, List.forall_mem_append, List.forall_mem_map]
    simp

theorem Domain.isBody_of_ofProgram {program : Program} {domain : Domain}
    (hprogram : program.WellFormed) (h : Domain.ofProgram program = .ok domain) :
    IsBody domain.causes.toList := by
  have hhashless := Domain.hashless_ofProgram hprogram h
  obtain ⟨blocks, hblocks, h⟩ := bind_eq_ok.mp h
  obtain rfl := pure_eq_ok.mp h
  refine .renderAll ?_ ?_ hhashless
  · obtain ⟨rule, hrule⟩ := List.exists_mem_of_ne_nil _ hprogram.some_rule
    obtain ⟨block, hblock, -⟩ := exists_of_forall₂ (mapM_eq_ok_iff.mp hblocks) hrule
    exact fun hnil => block.lines_ne_nil (List.flatMap_eq_nil_iff.mp hnil block hblock)
  · intro line hline
    obtain ⟨block, -, hline⟩ := List.mem_flatMap.mp hline
    exact Block.depth_pos line hline

/-- **A marker for the number of effects stands before a body or after it**, whatever text is around
the body. -/
theorem IsBody.stands_outside {body before after left right : List Char} (h : IsBody body)
    (htext : before ++ body ++ after = left ++ Marker.maxEffects.text.toList ++ right) :
    left.length + Marker.maxEffects.text.toList.length ≤ before.length ∨
      before.length + body.length ≤ left.length := by
  by_contra! hinside
  obtain ⟨hbefore, hafter⟩ := hinside
  have hlength : Marker.maxEffects.text.toList.length = 21 := by decide +kernel
  have hsign : Marker.maxEffects.text.toList[6]? = some '#' := by decide +kernel
  have hline : '\n' ∉ Marker.maxEffects.text.toList := by decide +kernel
  have hspaces : ∀ k < 21, Marker.maxEffects.text.toList[k]? = some ' ' →
      k + 1 < 21 ∧ Marker.maxEffects.text.toList[k + 1]? ≠ some ' ' := by decide +kernel
  generalize Marker.maxEffects.text.toList = mark at *
  have hget : ∀ k < 21, (before ++ body ++ after)[left.length + k]? = mark[k]? := by
    intro k hk
    rw [htext, List.append_assoc, List.getElem?_append_right (Nat.le_add_right ..),
      Nat.add_sub_cancel_left, List.getElem?_append_left (hlength ▸ hk)]
  have hbody : ∀ k, k < body.length → (before ++ body ++ after)[before.length + k]? = body[k]? := by
    intro k hk
    rw [List.append_assoc, List.getElem?_append_right (Nat.le_add_right ..),
      Nat.add_sub_cancel_left, List.getElem?_append_left hk]
  rcases Nat.lt_or_ge left.length before.length with hlt | hge
  · -- the first two characters of the body would stand in the marker
    obtain ⟨rest, hrest⟩ := h.begins
    have hlong : 1 < body.length := by rw [hrest]; simp
    obtain ⟨k, hk⟩ := Nat.exists_eq_add_of_le hlt.le
    have hfirst : mark[k]? = some ' ' := by
      rw [← hget k (by omega), ← hk, ← Nat.add_zero before.length, hbody 0 (by omega), hrest]
      rfl
    obtain ⟨hnext, hne⟩ := hspaces k (by omega) hfirst
    refine hne ?_
    rw [← hget (k + 1) hnext, ← Nat.add_assoc, ← hk, hbody 1 hlong, hrest]
    rfl
  · obtain ⟨k, hk⟩ := Nat.exists_eq_add_of_le hge
    rcases Nat.lt_or_ge (k + 6) body.length with hin | hout
    · -- the sign of a comment would stand in the body
      refine h.hashless (List.mem_of_getElem? (i := k + 6) ?_)
      rw [← hbody _ hin, ← Nat.add_assoc, ← hk, hget 6 (by omega), hsign]
    · -- the end of the body's last line would stand in the marker
      obtain ⟨rest, hrest⟩ := h.ends
      have hlast : body[body.length - 1]? = some '\n' := by simp [hrest]
      obtain ⟨d, hd⟩ : ∃ d, body.length - 1 = k + d := ⟨body.length - 1 - k, by omega⟩
      refine hline (List.mem_of_getElem? (i := d) ?_)
      rw [← hget d (by omega), hk, Nat.add_assoc, ← hd, hbody _ (by omega), hlast]

end Facility

/-! ## Both markers -/

section Markers

variable {templates templates' : Templates} {template : String} {domain : Facility.Domain}

/-- A facility template holds both markers. -/
theorem Templates.holds_markers_of_set (h : templates.set .facility template = .ok templates') :
    Marker.causes.isIn template = true ∧ Marker.maxEffects.isIn template = true ∧
      templates'.facility = template := by
  simp only [Templates.set, Marker.ofTarget] at h
  split at h
  · cases h
  · rename_i hfind
    obtain rfl := Except.ok.inj h
    simpa using hfind

theorem Marker.toList_splice {marker : Marker} {part : String} {before after : List Char}
    (h : FirstAt marker.text.toList template.toList before after) :
    (marker.splice part template).toList = before ++ part.toList ++ after :=
  Text.toList_replaceFirst h

theorem Marker.causes_apart_maxEffects :
    Apart Marker.causes.text.toList Marker.maxEffects.text.toList := by
  decide +kernel

theorem Marker.maxEffects_apart_causes :
    Apart Marker.maxEffects.text.toList Marker.causes.text.toList := by
  decide +kernel

/-- **The facility script is the template with both markers replaced at once.** -/
theorem Templates.facilityScript_replacesBoth {text : String} {limits : Limits} {program : Program}
    (hset : templates.set .facility template = .ok templates')
    (hread : Program.read limits text = .ok program)
    (hdomain : Facility.Domain.ofProgram program = .ok domain) :
    ∃ n, IsGreatest {n | ∃ rule ∈ program.rules, rule.effects.length = n} n ∧
      ReplacesBoth Marker.causes.text domain.causes Marker.maxEffects.text s!"M = {n}" template
        (templates'.facilityScript domain) := by
  have hprogram := Program.wellFormed_of_read hread
  have hbody := Facility.Domain.isBody_of_ofProgram hprogram hdomain
  have hmaxEffects : domain.maxEffects = program.maxEffects := by
    obtain ⟨blocks, -, h⟩ := bind_eq_ok.mp hdomain
    obtain rfl := pure_eq_ok.mp h
    rfl
  refine ⟨_, Program.isGreatest_maxEffects hprogram.some_rule, ?_⟩
  rw [← hmaxEffects]
  obtain ⟨hcauses, hmax, rfl⟩ := Templates.holds_markers_of_set hset
  obtain ⟨a, rest, hfirst⟩ := Text.exists_firstAt hcauses
  obtain ⟨before, c, hfirst'⟩ := Text.exists_firstAt hmax
  rcases Nat.le_total a.length before.length with hle | hle
  · left
    obtain ⟨b, rfl, rfl⟩ := Marker.causes_apart_maxEffects.exists_between
      (hfirst.stands.symm.trans hfirst'.stands) hle
    refine ⟨a, b, c, hfirst, hfirst', ?_⟩
    have hnext : FirstAt Marker.maxEffects.text.toList
        (Marker.causes.splice domain.causes templates'.facility).toList
        (a ++ domain.causes.toList ++ b) c := by
      rw [hfirst'.stands] at hfirst'
      rw [Marker.toList_splice hfirst, ← List.append_assoc, ← List.append_assoc]
      exact hfirst'.replace_before (by decide +kernel) fun _ _ => hbody.stands_outside
    rw [Templates.facilityScript, Marker.toList_splice hnext]
  · right
    obtain ⟨b, rfl, rfl⟩ := Marker.maxEffects_apart_causes.exists_between
      (hfirst'.stands.symm.trans hfirst.stands) hle
    refine ⟨before, b, rest, hfirst', hfirst, ?_⟩
    have hnext : FirstAt Marker.maxEffects.text.toList
        (Marker.causes.splice domain.causes templates'.facility).toList before
        (b ++ (domain.causes.toList ++ rest)) := by
      rw [hfirst.stands, List.append_assoc _ _ rest, List.append_assoc b] at hfirst'
      rw [Marker.toList_splice hfirst, List.append_assoc _ _ rest]
      exact hfirst'.replace_after
    rw [Templates.facilityScript, Marker.toList_splice hnext]
    simp only [List.append_assoc]

/-- A template that goes on, after the marker for causes, like the end of the other marker. -/
def abuttingTemplate : String :=
  "    # INSERT CAUSES HERE# INSERT M HERE\nM = 0 # INSERT M HERE\n"

/-- A program with inline code that ends like the beginning of a marker. -/
def abuttingText : String :=
  "RULES \x7b if (PYTHON(#M = 0 #)): m() := f(), g() \x7d"

/-- The two do not form a marker. -/
theorem facilityScript_replacesBoth_abutting : ∃ templates program domain,
    Templates.builtin.set .facility abuttingTemplate = .ok templates ∧
    Program.read ⟨100, 1⟩ abuttingText = .ok program ∧
    Facility.Domain.ofProgram program = .ok domain ∧
    ∃ n, IsGreatest {n | ∃ rule ∈ program.rules, rule.effects.length = n} n ∧
      ReplacesBoth Marker.causes.text domain.causes Marker.maxEffects.text s!"M = {n}"
        abuttingTemplate (templates.facilityScript domain) := by
  have hset : (Templates.builtin.set .facility abuttingTemplate).isOk = true := by decide +kernel
  have hread : (Program.read ⟨100, 1⟩ abuttingText).isOk = true := by decide +kernel
  have hdomain : ((Program.read ⟨100, 1⟩ abuttingText).toOption.any fun program =>
      (Facility.Domain.ofProgram program).isOk) = true := by decide +kernel
  obtain ⟨templates, hset⟩ := exists_of_isOk hset
  obtain ⟨program, hread⟩ := exists_of_isOk hread
  rw [hread] at hdomain
  obtain ⟨domain, hdomain⟩ := exists_of_isOk hdomain
  exact ⟨templates, program, domain, hset, hread, hdomain,
    Templates.facilityScript_replacesBoth hset hread hdomain⟩

end Markers

end CausalRules
