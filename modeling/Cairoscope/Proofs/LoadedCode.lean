import Cairoscope.Proofs.CallEdges
import Cairoscope.Proofs.Listing

/-! The code of a loaded contract. Every function has instructions, and their offsets increase. -/

namespace Cairoscope

structure Function.Laid (f : Function) : Prop where
  ne_nil : f.sites ≠ []
  increasing : (f.sites.map (·.offset)).Pairwise (· < ·)

namespace Contract

variable {prime : Int} {references : List (String × String)} {hints : List (String × Json)}

theorem offsets_of_sites {code : List Artifact.Placed} {sites : List Site}
    (h : code.mapM (siteOf prime references hints) = .ok sites) :
    sites.map (·.offset) = code.map (·.offset) := by
  induction code generalizing sites with
  | nil =>
    obtain rfl := Outcome.pure_eq_ok.1 h
    rfl
  | cons p code ih =>
    obtain ⟨s, rest, hs, hrest, rfl⟩ := Outcome.mapM_cons_eq_ok.1 h
    unfold siteOf at hs
    obtain ⟨target, -, hs⟩ := Outcome.bind_eq_ok.1 hs
    obtain rfl := Outcome.pure_eq_ok.1 hs
    rw [List.map_cons, List.map_cons, ih hrest]

theorem offsets_resolveCalls {fs : List Function} {f : Function} (hf : f ∈ resolveCalls fs) :
    ∃ f₀ ∈ fs, f.sites.map (·.offset) = f₀.sites.map (·.offset) := by
  obtain ⟨f₀, hf₀, rfl⟩ := List.mem_map.1 hf
  refine ⟨f₀, hf₀, ?_⟩
  rw [List.map_map]
  refine List.map_congr_left fun s _ => ?_
  rw [Function.comp_apply]
  split_ifs <;> rfl

theorem laid_of_ofArtifact {doc : Json} {c : Contract} (h : ofArtifact doc = .ok c) {f : Function}
    (hf : f ∈ c.functions) : f.Laid := by
  obtain ⟨k, references, hints, groups, fs, hlisting, hfs, hfunctions⟩ := functions_of_ofArtifact h
  obtain ⟨words, code, hlisted⟩ := Artifact.listed_of_listing hlisting
  obtain ⟨f₀, hf₀, hoffsets⟩ := offsets_resolveCalls (hfunctions ▸ hf)
  obtain ⟨g, hg, id, hfunction⟩ := functionOf_of_functionsOf hfs hf₀
  have hcode : f.sites.map (·.offset) = g.code.map (·.offset) :=
    hoffsets.trans (offsets_of_sites (sites_of_functionOf hfunction))
  obtain ⟨p, rest, hopens, -⟩ := hlisted.opens g hg
  constructor
  · intro hnil
    simp [hnil, hopens] at hcode
  · -- the group is a part of the swept code
    have hincreasing := hlisted.tiles.increasing
    rw [← hlisted.flat, List.map_flatMap, List.pairwise_flatMap] at hincreasing
    rw [hcode]
    exact hincreasing.1 g hg

end Contract

end Cairoscope
