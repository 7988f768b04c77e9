import ClassLang.Proofs.Llvm.Declared
import ClassLang.Proofs.Tree.Encoded

/-!
The functions of a module are well-formed. A division splits a block of the graph, so a
function has blocks that its graph does not have; still each block of the graph has an end,
and the phis choose between the right ends.
-/

namespace ClassLang.Llvm

open Graph (Program)

/-- How what has been written for a graph mirrors it: it keeps to the rules, each block of the
graph has a last block, which leads where it leads, and each phi of the graph starts the block
of its block and chooses from the results of its operands. -/
structure Mirrors (f : Graph.Func) (w : Writer) : Prop where
  wellFormed : w.body.WellFormed
  stops : ∀ b ∈ f.order, ∃ k, w.ends.lookup b = some k ∧
    w.body.succs k = (f.succs b).map f.reversePostOrder.idxOf
  phis : ∀ i v, f.instr? i = some v → v.op = .phi → ∃ n type pairs,
    w.results[i]? = some (some (.result n type)) ∧
    w.body.line? (f.reversePostOrder.idxOf v.block) 0 = some ⟨n, .phi type pairs⟩ ∧
    Chooses f w v pairs

section

variable {c : Context} {e : Env} {dom : Graph.Doms} {s s' : Writer}

/-- The phi of an instruction of the graph is where its block starts. -/
theorem phi_there (hc : Sound c e dom) (h : Done c e dom c.order [] s)
    (hs : Filled c s.phis s s') {i : Nat} {v : Graph.Instr} (hv : c.graph.instr? i = some v)
    (hop : v.op = .phi) : ∃ n type pairs,
      s'.results[i]? = some (some (.result n type)) ∧
      s'.body.line? (c.order.idxOf v.block) 0 = some ⟨n, .phi type pairs⟩ ∧
      Chooses c.graph s' v pairs := by
  have hhome := hc.mem_order.2 (hc.good.coded.home i v hv)
  have hdone : i ∈ c.order.flatMap c.graph.values :=
    List.mem_flatMap.2 ⟨v.block, hhome, mem_values_of_block hc hv⟩
  obtain ⟨x, hx⟩ := h.stored.there i hdone v hv (by rw [hop]; rfl)
  obtain ⟨w, type, hw, hresult, hmade, hform⟩ := h.inv.results i x hx
  obtain rfl := Option.some.inj (hv.symm.trans hw)
  simp only [Form, hop] at hform
  obtain ⟨n, type', rfl, hnoted⟩ := hform
  obtain ⟨j, type'', _, _, hresult', hline⟩ := h.inv.phis n v hnoted
  obtain rfl := Option.some.inj (hresult.symm.trans hresult')
  obtain rfl : type' = type := hmade.type
  obtain ⟨⟨n', instr⟩, hline', hnumber, _⟩ := hs.line hline
  obtain rfl : n' = n := hnumber
  rcases line_cases h hs hline' with ⟨hsame, hnot⟩ | ⟨v', j', type', pairs, hshape⟩
  · obtain ⟨_, rfl⟩ := Line.mk.inj (Option.some.inj (hline.symm.trans hsame))
    cases hnot
  · -- the phi that has been filled in is that of the instruction, since it starts its block
    have hhome' := hc.mem_order.2 (hc.good.coded.home j' v' hshape.instr)
    have hblock := hc.idxOf_inj hhome hshape.block
    have hfirst := (hc.good.coded.phis i v hv hop).first
    have hfirst' := (hc.good.coded.phis j' v' hshape.instr hshape.op).first
    rw [← hblock, hfirst] at hfirst'
    obtain rfl := Option.some.inj hfirst'
    obtain rfl := Option.some.inj (hv.symm.trans hshape.instr)
    obtain rfl := Option.some.inj (hresult.symm.trans hshape.result)
    have hform := hshape.form
    dsimp only at hform
    subst hform
    refine ⟨n', type', pairs, ?_, hline', ?_⟩
    · rw [hs.same.1]
      exact hx
    · have hchooses := hshape.chooses
      unfold Chooses at hchooses ⊢
      rw [hs.same.1, hs.same.2.1]
      exact hchooses

theorem mirrors (hc : Sound c e dom) (h : Done c e dom c.order [] s)
    (hs : Filled c s.phis s s') (horder : c.order = c.graph.reversePostOrder) :
    Mirrors c.graph s' where
  wellFormed := wellFormed hc h hs
  stops b hb := by
    obtain ⟨k, hk, hstops⟩ := h.stops b (hc.mem_order.2 hb)
    obtain ⟨t, ht, htargets⟩ := hstops.leads
    refine ⟨k, by rw [hs.same.2.1]; exact hk, ?_⟩
    rw [hs.succs, ← horder, ← htargets, Body.succs, ht]
    rfl
  phis i v hv hop := by
    rw [← horder]
    exact phi_there hc h hs hv hop

end

/-- Whatever was accepted becomes a module whose functions are well-formed. Nothing is used
before it has been computed, also where a division has split a block of the graph or the block
that a phi chooses from. -/
theorem emitted_functions_wellFormed {name : String} {bytes : List UInt8} {limit : Option Nat}
    {typed : Typed.File} (hparse : (parseFile name bytes).reports = [])
    (hcheck : (parseFile name bytes).file.check limit = .ok typed) (hlimit : limit ≠ some 0)
    (hlength : bytes.length < 2 ^ 63) (source : String) :
    let p := Program.ofTyped typed (Layouts.build typed.table)
    ∃ m d funcs, emit p source = .ok m ∧ Declared.ofProgram p = .ok d ∧
      m.funcs = supportFuncs ++ [compareTexts] ++ d.hosts ++ funcs ∧
      (∀ g ∈ supportFuncs ++ [compareTexts] ++ d.hosts, g.blocks = []) ∧
      List.Forall₂ (fun f g => ∃ head before w, d.funcs.lookup f.ref = some head ∧
        (Write.body (.ofGraph d f head)).run (.start f before) = .ok (g.blocks, w) ∧
        g.blocks = w.body ∧ Mirrors f w) p.funcs funcs := by
  intro p
  have hripe := checked_ripe hparse hcheck hlimit hlength
  obtain ⟨m, d, literals, funcs, hemit, hbuilds⟩ := exists_module hripe source
  refine ⟨m, d, funcs, hemit, hbuilds.declared, hbuilds.code, hbuilds.blocks_of_declared,
    hbuilds.emitted.imp ?_⟩
  rintro f g ⟨w, ⟨head, before, dom, s, hlookup, _, hsound, hrun, rfl, hdone, hfilled⟩, _⟩
  exact ⟨head, before, w, hlookup, hrun, rfl, mirrors hsound hdone hfilled rfl⟩

/-- A text where a division splits a block that a phi chooses from. -/
def quotientText : List UInt8 := "fun f(a:int){while 1/a>1&&a>1{}}".toUTF8.toList

theorem quotientText_wellFormed : ∃ typed m,
    (parseFile "t" quotientText).reports = [] ∧
    (parseFile "t" quotientText).file.check none = .ok typed ∧ quotientText.length < 2 ^ 63 ∧
    emit (Program.ofTyped typed (Layouts.build typed.table)) "t" = .ok m ∧
    m.funcs.map (·.blocks.length) = [0, 0, 0, 9] ∧
    ∀ g ∈ m.funcs, g.blocks ≠ [] → Body.WellFormed g.blocks := by
  have hrun : (fun r : Parsed => (r.reports, (r.file.check none).toOption.map fun typed =>
      (emit (Program.ofTyped typed (Layouts.build typed.table)) "t").toOption.map fun m =>
        m.funcs.map (·.blocks.length))) (parseFile "t" quotientText) =
      ([], some (some [0, 0, 0, 9])) := by
    rw [quotientText, parseFile_ofList]
    decide +kernel
  have hlength : quotientText.length < 2 ^ 63 := by decide +kernel
  obtain ⟨hparse, typed, hcheck, hlengths⟩ := Parsed.exists_checked hrun
  obtain ⟨m, d, funcs, hemit, _, hfuncs, hbare, hall⟩ :=
    emitted_functions_wellFormed hparse hcheck (by simp) hlength "t"
  refine ⟨typed, m, hparse, hcheck, hlength, hemit, ?_, fun g hg hblocks => ?_⟩
  · rw [hemit] at hlengths
    exact Option.some.inj hlengths
  · rw [hfuncs] at hg
    rcases List.mem_append.1 hg with hg | hg
    · exact absurd (hbare g hg) hblocks
    · obtain ⟨f, _, head, before, w, _, _, hbody, hmirrors⟩ :=
        Check.forall₂_partner hall.flip hg
      rw [hbody]
      exact hmirrors.wellFormed

end ClassLang.Llvm
