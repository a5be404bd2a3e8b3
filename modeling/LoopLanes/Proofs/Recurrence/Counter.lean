/-
The recurrence of a counter.

A phi makes up a component with the instruction that advances it, if this reads the phi alone and nothing else that
flows into the phi is computed from it (`UseGraph.Advances.coupled_iff`).  Hence the stride of the phi is what the
instruction adds (`Recurrences.stride_eq`).
-/
import LoopLanes.Proofs.Basic.Words
import LoopLanes.Proofs.Loop.Counted
import LoopLanes.Proofs.Recurrence.Components

open Relation

namespace LoopLanes

/-- A phi and what advances it: this reads the phi alone, and what else flows into the phi is not computed from
it. -/
structure UseGraph.Advances (g : UseGraph) (phi next : Temp) : Prop where
  ne : phi ≠ next
  next_operands : g.operands next = [phi]
  next_mem : next ∈ g.operands phi
  others : ∀ u ∈ g.operands phi, u ≠ next → ¬ g.DependsOn u phi

namespace UseGraph.Advances

variable {g : UseGraph} {phi next u : Temp} {E : List Temp}

theorem coupled_iff (h : g.Advances phi next) : g.Coupled phi u ↔ u = phi ∨ u = next := by
  constructor
  · rintro ⟨hto, hback⟩
    -- from the phi on, one comes to the two and to what does not lead back
    have hreach : u = phi ∨ u = next ∨ ¬ g.DependsOn u phi := by
      refine hto.mem_of_closed (P := fun u => u = phi ∨ u = next ∨ ¬ g.DependsOn u phi) (.inl rfl) ?_
      rintro t (rfl | rfl | ht) w hw
      · by_cases e : w = next
        · exact .inr (.inl e)
        · exact .inr (.inr (h.others w hw e))
      · rw [h.next_operands] at hw
        exact .inl (List.mem_singleton.mp hw)
      · exact .inr (.inr fun hw' => ht (ReflTransGen.head hw hw'))
    exact hreach.imp_right (Or.resolve_right · (not_not_intro hback))
  · rintro (rfl | rfl)
    · exact ⟨.refl, .refl⟩
    · exact ⟨.of_operand h.next_mem, .of_operand (by simp [h.next_operands])⟩

/-- Apart from the phi, its component has one member. -/
theorem filter_eq (h : g.Advances phi next) (hnodup : E.Nodup) (hcoupled : ∀ u, u ∈ E ↔ g.Coupled phi u) :
    E.filter (· != phi) = [next] := by
  refine List.perm_singleton.mp ((List.perm_ext_iff_of_nodup (hnodup.filter _) (List.nodup_singleton next)).mpr ?_)
  intro u
  rw [List.mem_filter, hcoupled, h.coupled_iff, bne_iff_ne, List.mem_singleton]
  constructor
  · exact fun ⟨hu, hne⟩ => hu.resolve_left hne
  · exact fun e => ⟨.inr e, e ▸ Ne.symm h.ne⟩

end UseGraph.Advances

namespace Recurrences

variable {g : UseGraph} {phi next : Temp} {E : List Temp} {op : ArithOp} {ty : Ty} {lhs rhs : Value} {c : Int}
  {phis : List Phi} {e : StridePattern}

/-- The constant that an induction sees added is the one that a recurrence of its variable sees. -/
theorem addend?_of_induction (hphi : phi ∈ E) (t : Temp) (ty : Ty) (h : Induction.addend? phi op lhs rhs = some c) :
    StridePattern.addend? E (.arith t op ty lhs rhs) = some c := by
  have hamong : StridePattern.among E (.temp phi) = true := by
    simpa [StridePattern.among, Value.temp?] using hphi
  obtain ⟨k, ⟨rfl, ⟨rfl, rfl⟩ | ⟨rfl, rfl⟩, rfl⟩ | ⟨rfl, rfl, rfl, hfit⟩⟩ := Induction.addend?_eq_some h
  · simp [StridePattern.addend?, hamong]
  · simp [StridePattern.addend?, hamong]
  · simp [StridePattern.addend?, hamong, hfit]

/-- What an induction adds is a word. -/
theorem fitI32?_of_addend? (h : Induction.addend? phi op lhs rhs = some c) : fitI32? c = some c := by
  obtain ⟨k, ⟨-, -, rfl⟩ | ⟨-, -, -, hfit⟩⟩ := Induction.addend?_eq_some h
  · exact if_pos (toInt_mem k)
  · obtain ⟨rfl, hfits⟩ := fitI32?_eq_some hfit
    exact if_pos hfits

/-- The sum over the component of a phi is what advances it. -/
theorem sum?_eq_some (h : g.Advances phi next) (hdef : g.definition? next = some (.arith next op ty lhs rhs))
    (hadd : Induction.addend? phi op lhs rhs = some c) (hnodup : E.Nodup)
    (hcoupled : ∀ u, u ∈ E ↔ g.Coupled phi u) : StridePattern.sum? g E phi .i32 = some c := by
  have hmem : phi ∈ E := (hcoupled phi).mpr ⟨.refl, .refl⟩
  rw [StridePattern.sum?, if_pos rfl, h.filter_eq hnodup hcoupled]
  simp [hdef, addend?_of_induction hmem next ty hadd, fitI32?_of_addend? hadd]

/-- What holds before the first phi and what every phi keeps holds after the last.  A phi moves
the search on; where it has a component, that is classified. -/
theorem ofPhis_induction (phis : List Phi) (Q : ComponentSearch → Recurrences → Prop)
    (hempty : Q .empty empty) (hrun : ∀ p ∈ phis, ∀ s r, Q s r → Q (.run g p.target s) r)
    (hclassify : ∀ p ∈ phis, ∀ s r elements, Q s r →
      (ComponentSearch.run g p.target s).component? p.target = some elements →
      Q (.run g p.target s) (classify g (phis.map (·.target)) p.target p.ty elements r)) :
    ∃ s, Q s (ofPhis g phis) := by
  refine ⟨_, List.foldlRecOn (motive := fun sr : ComponentSearch × Recurrences => Q sr.1 sr.2)
    phis _ hempty ?_⟩
  rintro ⟨s, r⟩ h p hp
  dsimp only
  split
  · exact hrun p hp s r h
  · exact hclassify p hp s r _ h ‹_›

/-- A pattern is a component that the search answers for one of some phis, and the sum over it. -/
structure Summed (g : UseGraph) (phis : List Phi) (e : StridePattern) : Prop where
  component : ∃ ts, (ComponentSearch.runs g ts).component? e.phi = some e.elements
  cyclic : ¬ (e.elements.length = 1 ∧ !(g.operands e.phi).contains e.phi)
  sum : ∃ p ∈ phis, p.target = e.phi ∧ StridePattern.sum? g e.elements e.phi p.ty = some e.stride

theorem summed_of_ofPhis (h : e ∈ (ofPhis g phis).strides) : Summed g phis e := by
  -- the search has run from the phis so far
  obtain ⟨-, -, hall⟩ := ofPhis_induction (g := g) phis
    (fun s r => (∃ ts, s = ComponentSearch.runs g ts) ∧ ∀ e ∈ r.strides, Summed g phis e)
    ⟨⟨[], rfl⟩, by simp [empty]⟩
    (fun p _ s r ⟨⟨ts, hs⟩, hr⟩ => ⟨⟨ts ++ [p.target], by rw [ComponentSearch.runs_concat, hs]⟩, hr⟩)
    fun p hp s r elements ⟨⟨ts, hs⟩, hr⟩ hcomponent => by
      rw [hs, ← ComponentSearch.runs_concat] at hcomponent ⊢
      refine ⟨⟨_, rfl⟩, ?_⟩
      unfold classify
      split
      · exact hr
      · rename_i hcyclic
        split
        · rename_i c hsum
          exact List.forall_mem_cons.mpr ⟨⟨⟨_, hcomponent⟩, hcyclic, p, hp, rfl, hsum⟩, hr⟩
        · exact hr
  exact hall e h

/-- Only words have strides. -/
theorem ty_of_sum? (h : StridePattern.sum? g E phi ty = some c) : ty = .i32 := by
  unfold StridePattern.sum? at h
  split at h
  · assumption
  · cases h

/-- Every stride of the phi is what advances it. -/
theorem stride_eq (h : g.Advances phi next) (hdef : g.definition? next = some (.arith next op ty lhs rhs))
    (hadd : Induction.addend? phi op lhs rhs = some c) (he : e ∈ (ofPhis g phis).strides) (hphi : e.phi = phi) :
    e.stride = c := by
  obtain ⟨⟨ts, hcomponent⟩, -, p, -, -, hsum⟩ := summed_of_ofPhis he
  obtain ⟨hnodup, hcoupled⟩ := ComponentSearch.members_of_component? hcomponent
  rw [ty_of_sum? hsum, hphi, sum?_eq_some h hdef hadd hnodup (hphi ▸ hcoupled)] at hsum
  exact (Option.some.inj hsum).symm

end Recurrences

end LoopLanes
