import BranchingTime.Proofs.CubeStates
import BranchingTime.Proofs.PathEnumeration

/-!
# Diagrams are written and read

The text of the cubes of a diagram is read back as its paths, each of them as
a template over the bits of a state (`Cube.template`): a bit is known where the
path decides its variable. Where only the first cubes are written, the first
paths are read. As the paths cover the diagram, an assignment satisfies the
diagram if and only if it matches one of the templates.
-/

namespace BranchingTime

namespace Cube

variable {width : Nat} {p : Literals} {a : Assignment}

/-- The template of a path: bit `i` says what the path says about variable
`i + 1`. -/
def template (width : Nat) (p : Literals) : Cube :=
  (List.range width).map fun (i : Nat) =>
    if (i : Int) + 1 ∈ p then some true
    else if -((i : Int) + 1) ∈ p then some false
    else none

/-- The assignment has the known bits. -/
def Matches (cube : Cube) (a : Assignment) : Prop :=
  ∀ (i : Nat) (b : Bool), (cube[i]? : Option (Option Bool)) = some (some b) → a (i + 1) = b

/-- Setting the bits of the literals one after the other gives the template. -/
theorem Named.ofLiterals_eq_template (hp : Named width p) :
    ofLiterals width p = template width p := by
  refine List.ext_getElem? fun i => ?_
  by_cases hi : i < width
  swap
  · rw [List.getElem?_eq_none (by rw [length_ofLiterals]; omega),
      List.getElem?_eq_none (by simp [template]; omega)]
  rw [template, List.getElem?_map, List.getElem?_range hi, Option.map_some]
  by_cases htrue : (i : Int) + 1 ∈ p
  · rw [if_pos htrue, hp.getElem?_ofLiterals_iff]
    exact ⟨_, htrue, by omega, decide_eq_true (by omega)⟩
  by_cases hfalse : -((i : Int) + 1) ∈ p
  · rw [if_neg htrue, if_pos hfalse, hp.getElem?_ofLiterals_iff]
    exact ⟨_, hfalse, by omega, decide_eq_false (by omega)⟩
  rw [if_neg htrue, if_neg hfalse, ofLiterals, getElem?_foldl_put_of_ne, free,
    List.getElem?_replicate, if_pos hi]
  intro l hl heq
  have hpos := hp.pos l hl
  rcases Int.natAbs_eq l with habs | habs
  · exact htrue (by rwa [show (i : Int) + 1 = l by omega])
  · exact hfalse (by rwa [show -((i : Int) + 1) = l by omega])

/-- The assignments that match the template of a path are those that meet the
path. -/
theorem Named.matches_template (hp : Named width p) : (template width p).Matches a ↔ a.Meets p := by
  rw [← hp.ofLiterals_eq_template]
  constructor
  · intro h l hl
    have hpos := hp.pos l hl
    have hbit := h _ _ (hp.getElem?_ofLiterals_iff.mpr ⟨l, hl, rfl, rfl⟩)
    rw [Nat.sub_add_cancel hpos] at hbit
    exact decide_eq_true hbit
  · intro h i b hi
    obtain ⟨l, hl, rfl, rfl⟩ := hp.getElem?_ofLiterals_iff.mp hi
    rw [Nat.sub_add_cancel (hp.pos l hl)]
    exact of_decide_eq_true (h l hl)

end Cube

namespace Manager

variable {m : Manager} {f : Handle} {width : Nat}

/-- The templates of the paths cover the diagram. -/
theorem Reduced.eval_iff_matches (hr : m.Reduced) (h : m.Valid f)
    (hd : DependsOn (m.eval f) {v | v ≤ width}) (a : Assignment) :
    m.eval f a = true ↔ ∃ cube ∈ (m.paths f).map (Cube.template width), Cube.Matches cube a := by
  simp only [hr.eval_iff_meets h, List.mem_map, exists_exists_and_eq_and]
  refine exists_congr fun p => and_congr_right fun hp => ?_
  exact (hr.named h hd hp).matches_template.symm

/-- What is written for a diagram is read as the templates of its paths, all of
them or the first ones. Bit indices are read as numbers of 64 bits. -/
theorem WellFormed.readCubes_cubesText (hm : m.WellFormed) (h : m.Valid f)
    (hv : ∀ v, m.Occurs f v → v ≤ width) (hwidth : width ≤ Cube.maxIndex) :
    (∀ limit?, readCubes width (m.cubesText limit? f)
        = .ok ((limit?.elim (m.paths? none f) (m.paths? none f).take).map (Cube.template width)))
      ∧ ∃ cubes, readCubes width (m.cubesText none f) = .ok cubes
        ∧ ∀ a, m.eval f a = true ↔ ∃ cube ∈ cubes, Cube.Matches cube a := by
  have hr := hm.toReduced
  have hd : DependsOn (m.eval f) {v | v ≤ width} := (hr.dependsOn_iff_occurs h).mpr hv
  have hread : ∀ limit?, readCubes width (m.cubesText limit? f)
      = .ok ((limit?.elim (m.paths f) (m.paths f).take).map (Cube.template width)) := by
    intro limit?
    rw [hr.readCubes_cubesText_eq h hd hwidth]
    refine congrArg _ (List.map_congr_left fun p hp => ?_)
    exact (hr.named h hd (mem_of_mem_elim_take hp)).ofLiterals_eq_template
  have hpaths : m.paths? none f = m.paths f := hr.paths?_eq h none
  rw [hpaths]
  exact ⟨hread, _, hread none, hr.eval_iff_matches h hd⟩

/-- Two variables that differ, over three bits: the third bit is free. -/
theorem WellFormed.readCubes_cubesText_parity :
    parityManager.cubesText none (-.ofIndex 3) = "<0:1, 1:0><0:0, 1:1>"
      ∧ readCubes 3 (parityManager.cubesText none (-.ofIndex 3))
        = .ok [[some true, some false, none], [some false, some true, none]]
      ∧ readCubes 3 (parityManager.cubesText (some 1) (-.ofIndex 3))
        = .ok [[some true, some false, none]] := by
  have hvalid : parityManager.Valid (-.ofIndex 3) := Or.inr ⟨_, rfl⟩
  have hpaths : parityManager.paths? none (-.ofIndex 3) = [[1, -2], [-1, 2]] := by
    rw [wellFormed_parityManager.toReduced.paths?_eq hvalid]
    decide
  have hvars : ∀ v, parityManager.Occurs (-.ofIndex 3) v → v ≤ 3 := by
    intro v hv
    have hle : v ≤ 2 := (wellFormed_parityManager.toReduced.occurs_range hv).2
    omega
  obtain ⟨hread, -⟩ := readCubes_cubesText wellFormed_parityManager hvalid hvars (by decide)
  rw [hpaths] at hread
  exact ⟨by decide +kernel, hread none, hread (some 1)⟩

end Manager

end BranchingTime
