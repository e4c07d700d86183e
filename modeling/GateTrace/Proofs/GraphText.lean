import GateTrace.Graph
import GateTrace.Proofs.Naming
import Mathlib.Data.List.Nodup
import Mathlib.Logic.Relation

/-! # What a graph text says

    The text of a graph has a line for every vertex and one for every edge, and the edges are those
    of the trace. The key ideas:

    - Only quoted text comes from outside, and quoting leaves no line break. So splitting the text
      at its line breaks gives back its lines, whatever the gadgets are called.
    - A line is told to be an edge by its end. The numbers in it end at their closing quotes, so the
      edges can be read back from the text.
    - Without forward references each edge goes from a smaller number to a greater one, and so does
      each path.
-/

namespace GateTrace

/-! ### Nodes that are read -/

/-- Whether an operand mentions a node, at any depth. -/
inductive Operand.Mentions : Operand → Nat → Prop
  | gate {i : Nat} : Mentions (.gate i) i
  | proj {base : Operand} {index size i : Nat} (h : base.Mentions i) :
    Mentions (.proj base index size) i
  | array {items : List Operand} {x : Operand} {i : Nat} (hx : x ∈ items) (h : x.Mentions i) :
    Mentions (.array items) i

def Node.Reads (n : Node) (i : Nat) : Prop := ∃ x ∈ n.args, x.Mentions i

namespace Operand

mutual

theorem mem_gates {i : Nat} : ∀ {x : Operand}, i ∈ x.gates ↔ x.Mentions i
  | .input _ | .const _ | .nat _ => ⟨fun h => by simp [gates] at h, nofun⟩
  | .gate j => by
    rw [gates, List.mem_singleton]
    exact ⟨fun h => h ▸ .gate, fun h => by cases h; rfl⟩
  | .proj base _ _ => by
    rw [gates, mem_gates]
    exact ⟨.proj, fun h => by cases h; assumption⟩
  | .array items => by
    rw [gates, mem_gatesAll]
    exact ⟨fun ⟨_, hx, h⟩ => .array hx h, fun h => by cases h with | array hx h => exact ⟨_, hx, h⟩⟩

theorem mem_gatesAll {i : Nat} : ∀ {xs : List Operand}, i ∈ gatesAll xs ↔ ∃ x ∈ xs, x.Mentions i
  | [] => by simp [gatesAll]
  | x :: xs => by
    rw [gatesAll, List.mem_append, mem_gates, mem_gatesAll]
    simp

end

end Operand

theorem Node.mem_gates {n : Node} {i : Nat} : i ∈ n.gates ↔ n.Reads i := by
  rw [gates, ← Operand.gatesAll_eq_flatMap, Operand.mem_gatesAll, Reads]

/-- Items that are kept stay in the order of their first occurrences. -/
theorem idxOf_lt_of_filter {p : Nat → Bool} {i j : Nat} (hi : p i = true) (hj : p j = true)
    {l : List Nat} (h : (l.filter p).idxOf i < (l.filter p).idxOf j) : l.idxOf i < l.idxOf j := by
  induction l with
  | nil => simp at h
  | cons k l ih =>
    by_cases hk : p k = true
    · rw [List.filter_cons_of_pos hk] at h
      -- The search ends at `i` or at `j`, or else passes over an item of both lists.
      by_cases hki : k = i
      · subst hki
        have hkj : k ≠ j := by
          intro hkj
          simp [hkj] at h
        rw [List.idxOf_cons_self, List.idxOf_cons_ne _ hkj]
        exact Nat.succ_pos _
      · by_cases hkj : k = j
        · simp [hkj] at h
        · rw [List.idxOf_cons_ne _ hki, List.idxOf_cons_ne _ hkj] at h ⊢
          exact Nat.succ_lt_succ (ih (Nat.lt_of_succ_lt_succ h))
    · -- An item that is dropped puts both off by one.
      have hki : k ≠ i := fun h => hk (h ▸ hi)
      have hkj : k ≠ j := fun h => hk (h ▸ hj)
      rw [List.filter_cons_of_neg hk] at h
      rw [List.idxOf_cons_ne _ hki, List.idxOf_cons_ne _ hkj]
      exact Nat.succ_lt_succ (ih h)

/-- Without repetitions, a list is in the order of the first occurrences. -/
theorem pairwise_eraseDups : ∀ l : List Nat,
    l.eraseDups.Pairwise fun i j => l.idxOf i < l.idxOf j
  | [] => by simp
  | i :: l => by
    have hshorter : (l.filter fun j => !j == i).length < (i :: l).length :=
      Nat.lt_succ_of_le (List.length_filter_le _ _)
    -- What follows is what is left without the first item, in the order of what is left.
    have hrest := pairwise_eraseDups (l.filter fun j => !j == i)
    have hne : ∀ j ∈ (l.filter fun j => !j == i).eraseDups, j ≠ i := by
      intro j hj
      simpa using (List.mem_filter.mp (List.mem_eraseDups.mp hj)).2
    rw [List.eraseDups_cons, List.pairwise_cons]
    refine ⟨?_, hrest.imp_of_mem ?_⟩
    · intro j hj
      rw [List.idxOf_cons_self, List.idxOf_cons_ne _ (hne j hj).symm]
      exact Nat.succ_pos _
    · intro j k hj hk h
      rw [List.idxOf_cons_ne _ (hne j hj).symm, List.idxOf_cons_ne _ (hne k hk).symm]
      have hkept := idxOf_lt_of_filter (by simpa using hne j hj) (by simpa using hne k hk) h
      exact Nat.succ_lt_succ hkept
termination_by l => l.length
decreasing_by exact hshorter

/-! ### Quoted text -/

namespace Text

/-- Text as it may stand between quotes on one line: it has no line break, and a backslash before
    each quote of its own. -/
inductive Escaped : List Char → Prop
  | nil : Escaped []
  | plain {c : Char} {cs : List Char} (hline : c ≠ '\n') (hquote : c ≠ '"') (hslash : c ≠ '\\')
    (h : Escaped cs) : Escaped (c :: cs)
  | escape {c : Char} {cs : List Char} (hline : c ≠ '\n') (h : Escaped cs) :
    Escaped ('\\' :: c :: cs)

theorem Escaped.append {cs ds : List Char} (hcs : Escaped cs) (hds : Escaped ds) :
    Escaped (cs ++ ds) := by
  induction hcs with
  | nil => exact hds
  | plain hline hquote hslash _ ih => exact .plain hline hquote hslash ih
  | escape hline _ ih => exact .escape hline ih

theorem Escaped.newline_not_mem {cs : List Char} (h : Escaped cs) : '\n' ∉ cs := by
  induction h with
  | nil => exact List.not_mem_nil
  | plain hline _ _ _ ih => simp [Ne.symm hline, ih]
  | escape hline _ ih => simp [Ne.symm hline, ih]

theorem escaped_of_forall {cs : List Char} (h : ∀ c ∈ cs, c ≠ '\n' ∧ c ≠ '"' ∧ c ≠ '\\') :
    Escaped cs := by
  induction cs with
  | nil => exact .nil
  | cons c cs ih =>
    obtain ⟨⟨hline, hquote, hslash⟩, hrest⟩ := List.forall_mem_cons.mp h
    exact .plain hline hquote hslash (ih hrest)

theorem exists_digitChar_of_mem_toDigits {n : Nat} {c : Char} (h : c ∈ Nat.toDigits 16 n) :
    ∃ d : Nat, c = d.digitChar := by
  induction n using Nat.strongRecOn with
  | _ n ih =>
    rw [Nat.toDigits_eq_if (by decide)] at h
    split_ifs at h with hlt
    · exact ⟨n, List.mem_singleton.mp h⟩
    · rcases List.mem_append.mp h with h | h
      · exact ih (n / 16) (by omega) h
      · exact ⟨n % 16, List.mem_singleton.mp h⟩

theorem escaped_codePoint (c : Char) : Escaped (codePoint c) := by
  have hdigits : Escaped (Nat.toDigits 16 c.toNat) := by
    refine escaped_of_forall fun d hd => ?_
    obtain ⟨n, rfl⟩ := exists_digitChar_of_mem_toDigits hd
    exact ⟨Nat.digitChar_ne _ rfl, Nat.digitChar_ne _ rfl, Nat.digitChar_ne _ rfl⟩
  have hopen : Escaped "\\u\x7b".toList :=
    .escape (by decide) (.plain (by decide) (by decide) (by decide) .nil)
  have hclose : Escaped ['}'] := .plain (by decide) (by decide) (by decide) .nil
  exact (hopen.append hdigits).append hclose

theorem escaped_quotedChar (c : Char) : Escaped (quotedChar c) := by
  unfold quotedChar
  split_ifs with hquote hslash hline
  iterate 6 exact .escape (by decide) .nil
  · exact .plain hline hquote hslash .nil
  · exact escaped_codePoint c

theorem escaped_flatMap_quotedChar (cs : List Char) : Escaped (cs.flatMap quotedChar) := by
  induction cs with
  | nil => exact .nil
  | cons c cs ih => exact (escaped_quotedChar c).append ih

end Text

namespace Graph

/-! ### Lines -/

def labelLine (n : Node) (i : Nat) : String :=
  vertexName i ++ " [ label = " ++ Text.quoted (Vertex.ofNode n).label ++ " ];"

def edgeLine (e : Nat × Nat) : String := vertexName e.1 ++ " -> " ++ vertexName e.2 ++ ";"

def edgesTo (n : Node) (i : Nat) : List (Nat × Nat) := (Vertex.ofNode n).reads.map fun j => (j, i)

/-- The edges of a trace, from the node that is read to the one that reads it. -/
def edges (t : Trace) : List (Nat × Nat) := t.zipIdx.flatMap fun (n, i) => edgesTo n i

/-- The lines of a trace: after the first one those of each node, its label before its edges, and
    then the last one. -/
theorem lines_ofTrace (t : Trace) : lines (ofTrace t) =
    ["digraph \x7b"] ++
      (t.zipIdx.flatMap fun (n, i) => labelLine n i :: (edgesTo n i).map edgeLine) ++ ["\x7d"] := by
  simp only [lines, ofTrace, List.zipIdx_map, List.flatMap_map, edgesTo, List.map_map]
  rfl

theorem length_lines (t : Trace) :
    (lines (ofTrace t)).length = 2 + t.length + (edges t).length := by
  -- For the count, the lines of a vertex are its label and one line for each edge.
  have hlines : ∀ ns : List (Node × Nat),
      (ns.flatMap fun (n, i) => labelLine n i :: (edgesTo n i).map edgeLine).length =
        ns.length + (ns.flatMap fun (n, i) => edgesTo n i).length := by
    intro ns
    induction ns with
    | nil => rfl
    | cons n ns ih =>
      simp only [List.flatMap_cons, List.length_append, List.length_cons, List.length_map, ih]
      omega
  rw [lines_ofTrace, edges, List.length_append, List.length_append, hlines, List.length_zipIdx]
  simp only [List.length_cons, List.length_nil]
  omega

theorem newline_not_mem_vertexName (i : Nat) : '\n' ∉ (vertexName i).toList := by
  have hdigits : '\n' ∉ i.repr.toList := fun h => absurd (isDigit_of_mem_repr h) (by decide)
  simp only [vertexName, String.toList_append, List.mem_append, not_or]
  exact ⟨⟨by decide, hdigits⟩, by decide⟩

theorem newline_not_mem_labelLine (n : Node) (i : Nat) : '\n' ∉ (labelLine n i).toList := by
  have hname := newline_not_mem_vertexName i
  have hlabel := (Text.escaped_flatMap_quotedChar (Vertex.ofNode n).label.toList).newline_not_mem
  simp [labelLine, Text.quoted, hname, -List.mem_flatMap, hlabel]

theorem newline_not_mem_edgeLine (e : Nat × Nat) : '\n' ∉ (edgeLine e).toList := by
  simp [edgeLine, newline_not_mem_vertexName]

theorem newline_not_mem_lines {t : Trace} {l : String} (h : l ∈ lines (ofTrace t)) :
    '\n' ∉ l.toList := by
  rw [lines_ofTrace, List.mem_append, List.mem_append, List.mem_flatMap] at h
  rcases h with (h | ⟨⟨n, i⟩, -, h⟩) | h
  · rw [List.mem_singleton.mp h]
    decide
  · rcases List.mem_cons.mp h with rfl | h
    · exact newline_not_mem_labelLine n i
    · obtain ⟨e, -, rfl⟩ := List.mem_map.mp h
      exact newline_not_mem_edgeLine e
  · rw [List.mem_singleton.mp h]
    decide

/-- Lines without line breaks, each ended by one, can be told apart again. -/
theorem splitOn_flatMap_newline {ls : List String} (h : ∀ l ∈ ls, '\n' ∉ l.toList) :
    (String.join (ls.map (· ++ "\n"))).toList.splitOn '\n' = ls.map String.toList ++ [[]] := by
  induction ls with
  | nil => rfl
  | cons l ls ih =>
    obtain ⟨hl, hls⟩ := List.forall_mem_cons.mp h
    have hline : (String.join ((l :: ls).map (· ++ "\n"))).toList =
        l.toList ++ '\n' :: (String.join (ls.map (· ++ "\n"))).toList := by
      simp [String.toList_join]
    rw [hline, List.splitOn_append_cons_self_of_not_mem hl, ih hls]
    rfl

/-- The text, split at its line breaks, gives back the lines. -/
theorem splitOn_text (t : Trace) :
    (text t).toList.splitOn '\n' = (lines (ofTrace t)).map String.toList ++ [[]] :=
  splitOn_flatMap_newline fun _ => newline_not_mem_lines

/-! ### Edges -/

theorem mem_edges {t : Trace} {i j : Nat} :
    (j, i) ∈ edges t ↔ ∃ n, t[i]? = some n ∧ n.Reads j := by
  simp only [edges, edgesTo, Vertex.ofNode, List.mem_flatMap, List.mem_map, List.mem_eraseDups,
    Node.mem_gates]
  constructor
  · intro h
    obtain ⟨⟨n, i'⟩, hn, j', hj, he⟩ := h
    obtain ⟨rfl, rfl⟩ := Prod.mk.inj he
    exact ⟨n, List.mem_zipIdx_iff_getElem?.mp hn, hj⟩
  · intro h
    obtain ⟨n, hn, hj⟩ := h
    exact ⟨(n, i), List.mem_zipIdx_iff_getElem?.mpr hn, j, hj, rfl⟩

/-- The edges of a vertex are in the order in which its node visits what it reads. -/
theorem pairwise_edgesTo (n : Node) (i : Nat) :
    (edgesTo n i).Pairwise fun e e' => n.gates.idxOf e.1 < n.gates.idxOf e'.1 :=
  List.pairwise_map.mpr (pairwise_eraseDups n.gates)

theorem nodup_edges (t : Trace) : (edges t).Nodup := by
  rw [edges, List.nodup_flatMap]
  constructor
  -- Within one vertex each edge comes after the others in the order of the operands.
  · intro (n, i) _
    refine (pairwise_edgesTo n i).imp ?_
    rintro e _ hlt rfl
    exact Nat.lt_irrefl _ hlt
  · -- The edges of different vertices end at different vertices.
    have hends : (t.zipIdx.map Prod.snd).Nodup := by
      rw [List.zipIdx_map_snd]
      exact List.nodup_range'
    refine (List.pairwise_map.mp hends).imp ?_
    intro (n, i) (n', i') hne e he he'
    obtain ⟨j, -, rfl⟩ := List.mem_map.mp he
    obtain ⟨j', -, he'⟩ := List.mem_map.mp he'
    exact hne (Prod.mk.inj he').2.symm

/-- A number in quotes can be told from what comes after it. -/
theorem quoted_repr_cancel {i j : Nat} {r s : List Char}
    (h : i.repr.toList ++ '"' :: r = j.repr.toList ++ '"' :: s) : i = j ∧ r = s := by
  obtain ⟨hnumber, hrest⟩ := repr_append_cancel (by simp) (by simp) h
  exact ⟨hnumber, (List.cons.inj hrest).2⟩

theorem edgeLine_toList (e : Nat × Nat) : (edgeLine e).toList =
    "\"g".toList ++ (e.1.repr.toList ++ '"' :: (" -> \"g".toList ++
      (e.2.repr.toList ++ '"' :: [';']))) := by
  simp [edgeLine, vertexName]

theorem edgeLine_injective : Function.Injective edgeLine := by
  intro (j, i) (j', i') h
  have hchars := congrArg String.toList h
  rw [edgeLine_toList, edgeLine_toList] at hchars
  obtain ⟨rfl, hrest⟩ := quoted_repr_cancel (List.append_cancel_left hchars)
  obtain ⟨rfl, -⟩ := quoted_repr_cancel (List.append_cancel_left hrest)
  rfl

/-- Whether a line ends like that of an edge. -/
def isEdge (l : String) : Bool := ['"', ';'].isSuffixOf l.toList

theorem isEdge_edgeLine (e : Nat × Nat) : isEdge (edgeLine e) = true := by
  simp [isEdge, edgeLine, vertexName, List.isSuffixOf]

theorem isEdge_labelLine (n : Node) (i : Nat) : isEdge (labelLine n i) = false := by
  simp [isEdge, labelLine, List.isSuffixOf, List.isPrefixOf]

/-- The lines that end like those of edges are those of the edges. -/
theorem filter_isEdge_lines (t : Trace) :
    (lines (ofTrace t)).filter isEdge = (edges t).map edgeLine := by
  -- Of the lines of a vertex, the first is its label, and all others are edges.
  have hnode : ∀ n i, (labelLine n i :: (edgesTo n i).map edgeLine).filter isEdge =
      (edgesTo n i).map edgeLine := by
    intro n i
    rw [List.filter_cons_of_neg (by simp [isEdge_labelLine]), List.filter_eq_self]
    intro l hl
    obtain ⟨e, -, rfl⟩ := List.mem_map.mp hl
    exact isEdge_edgeLine e
  have hfirst : isEdge "digraph \x7b" = false := by decide
  have hlast : isEdge "\x7d" = false := by decide
  rw [lines_ofTrace, List.filter_append, List.filter_append, List.filter_flatMap, edges,
    List.map_flatMap]
  simp [hnode, hfirst, hlast]

/-- Traces with the same text have as many nodes, which read the same nodes. -/
theorem edges_eq_of_text {t u : Trace} (h : text t = text u) :
    t.length = u.length ∧ edges t = edges u := by
  have hlines : lines (ofTrace t) = lines (ofTrace u) := by
    have hsplit := splitOn_text t
    rw [h, splitOn_text u] at hsplit
    have hchars := List.append_cancel_right hsplit
    exact ((List.map_inj_right fun _ _ => String.toList_inj.mp).mp hchars).symm
  have hedges : edges t = edges u := by
    refine edgeLine_injective.list_map ?_
    rw [← filter_isEdge_lines, ← filter_isEdge_lines, hlines]
  -- What is not the line of an edge is that of a node, but for the first and the last.
  have hlength := congrArg List.length hlines
  rw [length_lines, length_lines, hedges] at hlength
  exact ⟨by omega, hedges⟩

/-- If nodes only read earlier ones, no path leads back to where it begins. -/
theorem not_transGen_self {t : Trace}
    (hbackward : ∀ (i : Nat) (n : Node), t[i]? = some n → ∀ j, n.Reads j → j < i) (i : Nat) :
    ¬ Relation.TransGen (fun j k => (j, k) ∈ edges t) i i := by
  have hlt : ∀ {j k : Nat}, Relation.TransGen (fun j k => (j, k) ∈ edges t) j k → j < k := by
    intro j k hpath
    induction hpath with
    | single h =>
      obtain ⟨n, hn, hj⟩ := mem_edges.mp h
      exact hbackward _ n hn _ hj
    | tail _ h ih =>
      obtain ⟨n, hn, hj⟩ := mem_edges.mp h
      exact Nat.lt_trans ih (hbackward _ n hn _ hj)
  exact fun hcycle => Nat.lt_irrefl i (hlt hcycle)

/-- The text of a graph consists of a first line, the lines of each node in turn, which are its
    label and then its edges in the order in which it visits what it reads, and a last line. The
    edges are the pairs of a node and one that reads it, each once. A label reads the operation, a
    line break and the arguments, and whatever these are they are escaped. So the text tells which
    nodes read which. If they only read earlier ones, there is no cycle. -/
theorem text_exact (t : Trace) :
    (text t).toList.splitOn '\n' = (lines (ofTrace t)).map String.toList ++ [[]] ∧
      lines (ofTrace t) = ["digraph \x7b"] ++
        (t.zipIdx.flatMap fun (n, i) => labelLine n i :: (edgesTo n i).map edgeLine) ++ ["\x7d"] ∧
      (lines (ofTrace t)).length = 2 + t.length + (edges t).length ∧
      (∀ i j, (j, i) ∈ edges t ↔ ∃ n, t[i]? = some n ∧ n.Reads j) ∧
      (edges t).Nodup ∧
      (∀ n i, (edgesTo n i).Pairwise fun e e' => n.gates.idxOf e.1 < n.gates.idxOf e'.1) ∧
      (∀ n i, ∃ label, Text.Escaped label ∧
        label = (opText n.op).toList.flatMap Text.quotedChar ++ ['\\', 'n'] ++
          (" ".intercalate (n.args.map operandText)).toList.flatMap Text.quotedChar ∧
        labelLine n i = vertexName i ++ " [ label = \"" ++ String.ofList label ++ "\" ];") ∧
      (∀ u, text t = text u → t.length = u.length ∧ edges t = edges u) ∧
      ((∀ (i : Nat) (n : Node), t[i]? = some n → ∀ j, n.Reads j → j < i) →
        ∀ i, ¬ Relation.TransGen (fun j k => (j, k) ∈ edges t) i i) := by
  refine ⟨splitOn_text t, lines_ofTrace t, length_lines t, fun _ _ => mem_edges, nodup_edges t,
    pairwise_edgesTo, ?_, fun _ => edges_eq_of_text, not_transGen_self⟩
  intro n i
  refine ⟨_, Text.escaped_flatMap_quotedChar (Vertex.ofNode n).label.toList, ?_, ?_⟩
  · have hbreak : Text.quotedChar '\n' = ['\\', 'n'] := by decide
    simp only [Vertex.ofNode, String.toList_append, List.flatMap_append]
    simp [hbreak]
  · rw [← String.toList_inj]
    simp [labelLine, Text.quoted]

/-- Bits and a number of two of them. -/
def bits : Trace :=
  [⟨.gate .toBinary, [.input 0, .nat 2]⟩,
    ⟨.gate .fromBinary, [.array [.proj (.gate 0) 0 2, .proj (.gate 0) 1 2]]⟩]

theorem text_exact_bits :
    text bits =
        "digraph \x7b\n" ++
        "\"g0\" [ label = \"ToBinary\\nin0 #2\" ];\n" ++
        "\"g1\" [ label = \"FromBinary\\n[g0[0], g0[1]]\" ];\n" ++
        "\"g0\" -> \"g1\";\n" ++
        "\x7d\n" ∧
      edges bits = [(0, 1)] ∧ ∀ i, ¬ Relation.TransGen (fun j k => (j, k) ∈ edges bits) i i := by
  have hbackward : ∀ p ∈ bits.zipIdx, ∀ j ∈ p.1.gates, j < p.2 := by decide
  obtain ⟨-, -, -, -, -, -, -, -, hacyclic⟩ := text_exact bits
  refine ⟨by decide +kernel, by decide, hacyclic ?_⟩
  intro i n hn j hj
  exact hbackward (n, i) (List.mem_zipIdx_iff_getElem?.mpr hn) j (Node.mem_gates.mpr hj)

end Graph

end GateTrace
