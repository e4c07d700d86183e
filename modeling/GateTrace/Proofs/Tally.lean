import GateTrace.Census
import GateTrace.Proofs.ByteOrder
import GateTrace.Proofs.Naming
import Mathlib.Algebra.GroupWithZero.Nat

/-! # What a census counts

    Every node is counted once on each level of a census. The key ideas:

    - Counts are kept in lists that increase by names, and to count is to change the item of one
      name. That leaves the others as they were and the list increasing, wherever the item stood and
      whether or not it was there before.
    - So one more node is one more in the total, in one group and in one of its entries, and an
      induction over the traces, and over the nodes of each, says what the census holds in the end.
-/

namespace GateTrace.Census

/-! ### Lists that increase by keys -/

section Upsert

variable {α : Type} {key : α → String} {new : α} {change : α → α} {xs : List α}

/-- The one key that is added is the key of the changed item. -/
theorem mem_keys_upsert (hkey : ∀ x, key (change x) = key x) (k : String) :
    k ∈ (upsert key new change xs).map key ↔ k = key new ∨ k ∈ xs.map key := by
  induction xs with
  | nil => simp [upsert, hkey]
  | cons x xs ih =>
    simp only [upsert]
    split_ifs with heq hlt
    · simp [hkey, heq]
    · simp [hkey]
    · simp only [List.map_cons, List.mem_cons, ih]
      tauto

/-- A list that increases by keys still does when an item was changed. -/
theorem increasing_upsert (hkey : ∀ x, key (change x) = key x)
    (hxs : (xs.map key).Pairwise (· < ·)) :
    ((upsert key new change xs).map key).Pairwise (· < ·) := by
  induction xs with
  | nil => simp [upsert]
  | cons x xs ih =>
    rw [List.map_cons, List.pairwise_cons] at hxs
    simp only [upsert]
    split_ifs with heq hlt
    · rw [List.map_cons, hkey, List.pairwise_cons]
      exact hxs
    -- The new item goes in front of the first with a greater key.
    · -- The new key is below the first one, so it is below all.
      rw [List.map_cons, hkey, List.map_cons, List.pairwise_cons, List.pairwise_cons]
      refine ⟨List.forall_mem_cons.mpr ⟨hlt, ?_⟩, hxs⟩
      intro k hk
      exact hlt.trans (hxs.1 k hk)
    · rw [List.map_cons, List.pairwise_cons]
      refine ⟨?_, ih hxs.2⟩
      intro k hk
      rcases (mem_keys_upsert hkey k).mp hk with rfl | hk
      · exact lt_of_le_of_ne (not_lt.mp hlt) (Ne.symm heq)
      · exact hxs.1 k hk

/-- What holds of the items with other keys, and of the changed one, holds of all items. -/
theorem forall_upsert {P : α → Prop} (hxs : (xs.map key).Pairwise (· < ·))
    (hother : ∀ x ∈ xs, key x ≠ key new → P x)
    (hold : ∀ x ∈ xs, key x = key new → P (change x))
    (hnew : key new ∉ xs.map key → P (change new)) : ∀ x ∈ upsert key new change xs, P x := by
  induction xs with
  | nil => simpa [upsert] using hnew
  | cons x xs ih =>
    rw [List.map_cons, List.pairwise_cons] at hxs
    have hrest : ∀ y ∈ xs, key x < key y := fun y hy => hxs.1 _ (List.mem_map_of_mem hy)
    simp only [upsert]
    split_ifs with heq hlt
    · -- The keys after this one are greater.
      refine List.forall_mem_cons.mpr ⟨hold x List.mem_cons_self heq.symm, ?_⟩
      intro y hy
      exact hother y (List.mem_cons_of_mem x hy) (heq ▸ (hrest y hy).ne')
    · -- The keys from here on are greater, so there was no item with the key.
      have hgreater : ∀ y ∈ x :: xs, key new < key y :=
        List.forall_mem_cons.mpr ⟨hlt, fun y hy => hlt.trans (hrest y hy)⟩
      refine List.forall_mem_cons.mpr ⟨hnew ?_, fun y hy => hother y hy (hgreater y hy).ne'⟩
      intro hmem
      obtain ⟨y, hy, hkey⟩ := List.mem_map.mp hmem
      exact (hgreater y hy).ne' hkey
    · refine List.forall_mem_cons.mpr ⟨hother x List.mem_cons_self (Ne.symm heq), ?_⟩
      refine ih hxs.2 (fun y hy => hother y (List.mem_cons_of_mem x hy))
        (fun y hy => hold y (List.mem_cons_of_mem x hy)) fun hnone => hnew ?_
      rw [List.map_cons, List.mem_cons]
      exact not_or.mpr ⟨heq, hnone⟩

/-- A change that adds to a number of the item it is made to adds that to the sum. -/
theorem sum_upsert {f : α → Nat} {d : Nat} (hchange : ∀ x, f (change x) = f x + d)
    (hnew : f new = 0) :
    ((upsert key new change xs).map f).sum = (xs.map f).sum + d := by
  induction xs with
  | nil => simp [upsert, hchange, hnew]
  | cons x xs ih =>
    simp only [upsert]
    split_ifs
    · simp only [List.map_cons, List.sum_cons, hchange]
      omega
    · simp only [List.map_cons, List.sum_cons, hchange, hnew]
      omega
    · simp only [List.map_cons, List.sum_cons, ih]
      omega

/-- One more item has one more key. -/
theorem exists_mem_concat_iff (f : α → String) (x : α) {k : String} :
    (∃ y ∈ xs ++ [x], f y = k) ↔ k = f x ∨ ∃ y ∈ xs, f y = k := by
  simp only [List.mem_append, List.mem_singleton]
  constructor
  · intro h
    obtain ⟨y, hy | rfl, hkey⟩ := h
    · exact .inr ⟨y, hy, hkey⟩
    · exact .inl hkey.symm
  · intro h
    obtain rfl | ⟨y, hy, hkey⟩ := h
    · exact ⟨x, .inr rfl, rfl⟩
    · exact ⟨y, .inl hy, hkey⟩

end Upsert

/-! ### One label -/

/-- Whether a group counts the nodes of a trace: all of them, and under each name that occurs those
    that have it. -/
structure Group.Tallies (g : Group) (nodes : Trace) : Prop where
  count : g.count = nodes.length
  sum : g.count = (g.entries.map Entry.count).sum
  listed : ∀ name, name ∈ g.entries.map Entry.name ↔ ∃ n ∈ nodes, n.op.name = name
  entries : ∀ e ∈ g.entries, e.count = nodes.countP (·.op.name = e.name)
  increasing : (g.entries.map Entry.name).Pairwise (· < ·)

@[simp] theorem Entry.name_increment (e : Entry) : e.increment.name = e.name := rfl

@[simp] theorem Entry.count_increment (e : Entry) : e.increment.count = e.count + 1 := rfl

/-- Counting a node keeps what was counted. -/
theorem Group.Tallies.add {g : Group} {nodes : Trace} (h : g.Tallies nodes) (n : Node) :
    (g.add n).Tallies (nodes ++ [n]) where
  count := by simp [Group.add, h.count]
  sum := by
    simp only [Group.add]
    rw [sum_upsert Entry.count_increment rfl, ← h.sum]
  listed name := by
    simp only [Group.add]
    rw [mem_keys_upsert Entry.name_increment, h.listed]
    exact (exists_mem_concat_iff (fun m : Node => m.op.name) n).symm
  entries := by
    refine forall_upsert h.increasing ?_ ?_ ?_
    · intro e he hne
      rw [h.entries e he, List.countP_append]
      simp [Ne.symm hne]
    · intro e he heq
      have heq' : e.name = n.op.name := heq
      simp [h.entries e he, heq']
    · intro hnone
      -- The name is new, so no node before this one has it.
      have hzero : nodes.countP (·.op.name = n.op.name) = 0 := by
        rw [List.countP_eq_zero]
        intro m hm hname
        exact hnone ((h.listed _).mpr ⟨m, hm, by simpa using hname⟩)
      rw [Entry.count_increment, Entry.name_increment, List.countP_append, hzero]
      simp
  increasing := increasing_upsert Entry.name_increment h.increasing

/-- Counting the nodes of a trace, one after the other, keeps what was counted. -/
theorem Group.Tallies.foldl {g : Group} {nodes : Trace} (h : g.Tallies nodes) (t : Trace) :
    (t.foldl Group.add g).Tallies (nodes ++ t) := by
  induction t generalizing g nodes with
  | nil => rwa [List.append_nil]
  | cons n t ih => simpa using ih (h.add n)

theorem Group.label_foldl (g : Group) (t : Trace) : (t.foldl Group.add g).label = g.label := by
  induction t generalizing g with
  | nil => rfl
  | cons n t ih => rw [List.foldl_cons, ih, Group.add]

theorem Group.count_foldl (g : Group) (t : Trace) :
    (t.foldl Group.add g).count = g.count + t.length := by
  induction t generalizing g with
  | nil => rfl
  | cons n t ih =>
    have hadd : (g.add n).count = g.count + 1 := rfl
    rw [List.foldl_cons, ih, hadd, List.length_cons]
    omega

theorem Group.tallies_nil (label : String) : (Group.mk label 0 []).Tallies [] where
  count := rfl
  sum := rfl
  listed name := by simp
  entries := by simp
  increasing := by simp

/-! ### All labels -/

/-- All nodes of the traces with a given label. -/
def nodesOf (label : String) (traces : List (String × Trace)) : Trace :=
  (traces.filter (·.1 = label)).flatMap (·.2)

/-- Whether a census counts the nodes of labelled traces: all of them, and under each label those of
    the traces that have it. -/
structure Tallies (c : Census) (traces : List (String × Trace)) : Prop where
  total : c.total = (traces.map (·.2.length)).sum
  sum : c.total = (c.groups.map Group.count).sum
  listed : ∀ label, label ∈ c.groups.map Group.label ↔ ∃ t ∈ traces, t.1 = label
  groups : ∀ g ∈ c.groups, g.Tallies (nodesOf g.label traces)
  increasing : (c.groups.map Group.label).Pairwise (· < ·)

theorem nodesOf_concat_of_ne {label label' : String} (traces : List (String × Trace)) (t : Trace)
    (hne : label' ≠ label) : nodesOf label (traces ++ [(label', t)]) = nodesOf label traces := by
  simp [nodesOf, hne]

theorem nodesOf_concat (label : String) (traces : List (String × Trace)) (t : Trace) :
    nodesOf label (traces ++ [(label, t)]) = nodesOf label traces ++ t := by
  simp [nodesOf]

/-- Counting another trace, under a label that is new or not, keeps what was counted. -/
theorem Tallies.add {c : Census} {traces : List (String × Trace)} (h : c.Tallies traces)
    (label : String) (t : Trace) : (c.add label t).Tallies (traces ++ [(label, t)]) where
  total := by simp [Census.add, h.total]
  sum := by
    simp only [Census.add]
    rw [sum_upsert (fun g : Group => g.count_foldl t) rfl, ← h.sum]
  listed l := by
    simp only [Census.add]
    rw [mem_keys_upsert fun g => g.label_foldl t, h.listed]
    exact (exists_mem_concat_iff (fun t : String × Trace => t.1) (label, t)).symm
  groups := by
    refine forall_upsert h.increasing ?_ ?_ ?_
    · intro g hg hne
      rw [nodesOf_concat_of_ne traces t (Ne.symm hne)]
      exact h.groups g hg
    · intro g hg heq
      have hlabel : g.label = label := heq
      have hgroup := (h.groups g hg).foldl t
      rwa [g.label_foldl, hlabel, nodesOf_concat, ← hlabel]
    · intro hnone
      -- The label is new, so no trace before this one has it.
      have hempty : nodesOf label traces = [] := by
        rw [nodesOf, List.filter_eq_nil_iff.mpr, List.flatMap_nil]
        intro t' ht' hl
        exact hnone ((h.listed _).mpr ⟨t', ht', by simpa using hl⟩)
      rw [Group.label_foldl, nodesOf_concat, hempty]
      exact (Group.tallies_nil label).foldl t
  increasing := increasing_upsert (fun g => g.label_foldl t) h.increasing

/-- A census counts the nodes of the traces that it is of. -/
theorem ofTraces_tallies (traces : List (String × Trace)) : (ofTraces traces).Tallies traces := by
  -- The traces counted so far grow by one with each step.
  have hrun : ∀ (rest : List (String × Trace)) {c : Census} {before : List (String × Trace)},
      c.Tallies before → (rest.foldl (fun c t => c.add t.1 t.2) c).Tallies (before ++ rest) := by
    intro rest
    induction rest with
    | nil =>
      intro c before h
      rwa [List.append_nil]
    | cons t rest ih =>
      intro c before h
      simpa using ih (h.add t.1 t.2)
  have hnone : (⟨0, []⟩ : Census).Tallies [] := ⟨rfl, rfl, by simp, by simp, by simp⟩
  exact hrun traces hnone

/-! ### Reports -/

/-- A row of a report: how deep it stands in the tree, and what is counted there. -/
structure Row where
  depth : Nat
  count : Nat
  name : String

/-- Whether a text shows a row: two blanks for each level, a dash, the count in decimal digits to the
    right of nine columns or of as many as it takes, and the name. -/
def Row.Shows (r : Row) (text : String) : Prop :=
  ∃ pad, pad + r.count.repr.length = max 9 r.count.repr.length ∧
    text.toList = List.replicate (2 * r.depth) ' ' ++ ['-', ' '] ++ List.replicate pad ' ' ++
      r.count.repr.toList ++ [' '] ++ r.name.toList ++ ['\n']

theorem shows_line {indent : String} {depth : Nat}
    (hindent : indent.toList = List.replicate (2 * depth) ' ') (count : Nat) (name : String) :
    Row.Shows ⟨depth, count, name⟩ (line indent count name) := by
  refine ⟨9 - count.repr.length, Nat.sub_add_eq_max 9 count.repr.length, ?_⟩
  simp [line, column, hindent, String.toList_append]

theorem replicate_blank_cancel {m n : Nat} {xs ys : List Char} (hxs : ∀ c ∈ xs.head?, c ≠ ' ')
    (hys : ∀ c ∈ ys.head?, c ≠ ' ')
    (h : List.replicate m ' ' ++ xs = List.replicate n ' ' ++ ys) : m = n ∧ xs = ys := by
  have hblank : ∀ k, ∀ c ∈ List.replicate k ' ', c = ' ' := fun _ _ => List.eq_of_mem_replicate
  obtain ⟨hblanks, hrest⟩ := word_cancel (hblank m) (hblank n) hxs hys h
  exact ⟨by simpa using congrArg List.length hblanks, hrest⟩

theorem ne_blank_of_mem_head?_repr {n : Nat} {xs : List Char} {c : Char}
    (hc : c ∈ (n.repr.toList ++ xs).head?) : c ≠ ' ' := by
  have hne : n.repr.toList ≠ [] := by simp
  rw [List.head?_append_of_ne_nil _ hne] at hc
  rintro rfl
  exact absurd (isDigit_of_mem_repr (List.mem_of_mem_head? hc)) (by decide)

/-- A row can be read back from the text that shows it. -/
theorem Row.Shows.unique {r r' : Row} {text : String} (h : r.Shows text) (h' : r'.Shows text) :
    r = r' := by
  obtain ⟨pad, -, htext⟩ := h
  obtain ⟨pad', -, htext'⟩ := h'
  rw [htext] at htext'
  simp only [List.append_assoc] at htext'
  -- The dash ends the indentation, the count ends the padding, and a blank ends the count.
  obtain ⟨hdepth, hrest⟩ := replicate_blank_cancel (by simp) (by simp) htext'
  obtain ⟨-, hcounted⟩ := replicate_blank_cancel (fun c => ne_blank_of_mem_head?_repr)
    (fun c => ne_blank_of_mem_head?_repr) (List.append_cancel_left hrest)
  obtain ⟨hcount, hnamed⟩ := repr_append_cancel (by simp) (by simp) hcounted
  have hname : r.name.toList = r'.name.toList :=
    List.append_cancel_right (List.append_cancel_left hnamed)
  obtain ⟨depth, count, name⟩ := r
  obtain ⟨depth', count', name'⟩ := r'
  obtain rfl : depth = depth' := by simpa using hdepth
  obtain rfl : count = count' := hcount
  obtain rfl : name = name' := String.toList_inj.mp hname
  rfl

/-- The rows of the report: the total, and below it each label with its operations. -/
def rows (c : Census) : List Row :=
  ⟨0, c.total, "all gates"⟩ :: c.groups.flatMap fun g =>
    ⟨1, g.count, g.label⟩ :: g.entries.map fun e => ⟨2, e.count, e.name⟩

/-- The report consists of the lines of its rows, and these can be read back from the lines. -/
theorem exists_lines_text (c : Census) :
    ∃ lines, c.text = String.join lines ∧ List.Forall₂ Row.Shows c.rows lines ∧
      ∀ rows, List.Forall₂ Row.Shows rows lines → rows = c.rows := by
  let lines : List String := line "" c.total "all gates" :: c.groups.flatMap fun g =>
    line "  " g.count g.label :: g.entries.map fun e => line "    " e.count e.name
  have htext : c.text = String.join lines := by
    -- The text joins those of the groups, which join those of their entries.
    rw [← String.toList_inj]
    simp [lines, text, Group.text, String.toList_join, List.flatMap_assoc, List.flatMap_map]
  have hshows : List.Forall₂ Row.Shows c.rows lines := by
    -- Group by group, the line of the label and then those of the operations show the rows.
    refine .cons (shows_line rfl c.total "all gates") ?_
    induction c.groups with
    | nil => exact .nil
    | cons g groups ih =>
      rw [List.flatMap_cons, List.flatMap_cons]
      refine List.rel_append (.cons (shows_line rfl g.count g.label) ?_) ih
      rw [List.forall₂_map_left_iff, List.forall₂_map_right_iff, List.forall₂_same]
      exact fun e _ => shows_line rfl e.count e.name
  refine ⟨lines, htext, hshows, fun rows hrows => ?_⟩
  exact List.left_unique_forall₂' (fun _ _ _ h h' => h.unique h') hrows hshows

theorem pairwise_bytes_lt {α : Type} {name : α → String} {xs : List α}
    (h : (xs.map name).Pairwise (· < ·)) :
    xs.Pairwise fun x y => Text.bytes (name x) < Text.bytes (name y) :=
  (List.pairwise_map.mp h).imp fun h => (Text.lt_iff_bytes_lt _ _).mp h

/-- The report on a circuit and its gadgets shows a tree, line by line, and the tree can be read back
    from the lines. At the top stand all nodes, which are those of the circuit and of all gadget
    bodies. Below stands each label that occurs, with the nodes of all traces under it. Below each
    label stands each name that its nodes have, with the nodes that have it. At both levels the
    counts add up to the one above, and the names increase byte by byte. -/
theorem ofCircuit_report (code : Trace) (gadgets : List Gadget) :
    let traces := ("circuit", code) :: gadgets.map fun g => (g.name, g.code)
    let c := ofCircuit code gadgets
    let total := code.length + (gadgets.map (·.code.length)).sum
    (∃ lines, c.text = String.join lines ∧ List.Forall₂ Row.Shows c.rows lines ∧
        ∀ rows, List.Forall₂ Row.Shows rows lines → rows = c.rows) ∧
      c.total = total ∧ c.total = (c.groups.map Group.count).sum ∧
      c.groups.Pairwise (fun g g' => Text.bytes g.label < Text.bytes g'.label) ∧
      (∀ label, (∃ g ∈ c.groups, g.label = label) ↔
        label = "circuit" ∨ ∃ g ∈ gadgets, g.name = label) ∧
      ∀ g ∈ c.groups,
        g.count = (nodesOf g.label traces).length ∧
        g.count = (g.entries.map Entry.count).sum ∧
        g.entries.Pairwise (fun e e' => Text.bytes e.name < Text.bytes e'.name) ∧
        (∀ name, (∃ e ∈ g.entries, e.name = name) ↔
          ∃ n ∈ nodesOf g.label traces, n.op.name = name) ∧
        ∀ e ∈ g.entries, e.count = (nodesOf g.label traces).countP (·.op.name = e.name) := by
  intro traces c total
  have h : c.Tallies traces := ofTraces_tallies traces
  -- Every node is counted under one label.
  have htotal : c.total = total := by
    simp [h.total, traces, total, Function.comp_def]
  refine ⟨exists_lines_text c, htotal, h.sum, pairwise_bytes_lt h.increasing, ?_, ?_⟩
  · intro label
    rw [← List.mem_map, h.listed]
    simp [traces, eq_comm]
  · intro g hg
    have hgroup := h.groups g hg
    refine ⟨hgroup.count, hgroup.sum, pairwise_bytes_lt hgroup.increasing, ?_, hgroup.entries⟩
    intro name
    rw [← List.mem_map]
    exact hgroup.listed name

/-- The report on a circuit that calls a gadget and then adds twice, with the multiplication that the
    gadget does. The gadget's name is listed as a label, and as an operation of the circuit. -/
theorem ofCircuit_report_square :
    let square : Gadget := {
      name := "Square", args := [], arity := 1, output := some (.gate 0), outputShape := none
      code := [⟨.gate .mul, [.input 0]⟩] }
    let code : Trace := [⟨.call (square.callee 0), [.input 0]⟩, ⟨.gate .add, [.input 0]⟩,
      ⟨.gate .add, [.input 0]⟩]
    let c := ofCircuit code [square]
    c.text =
        "-         4 all gates\n" ++
        "  -         1 Square\n" ++
        "    -         1 mul\n" ++
        "  -         3 circuit\n" ++
        "    -         1 Square\n" ++
        "    -         2 add\n" ∧
      (∃ lines, c.text = String.join lines ∧ List.Forall₂ Row.Shows c.rows lines) ∧
      c.total = 4 ∧ c.total = (c.groups.map Group.count).sum := by
  intro square code c
  obtain ⟨⟨lines, htext, hshows, -⟩, htotal, hsum, -⟩ := ofCircuit_report code [square]
  exact ⟨by decide +kernel, ⟨lines, htext, hshows⟩, htotal.trans rfl, hsum⟩

end GateTrace.Census
