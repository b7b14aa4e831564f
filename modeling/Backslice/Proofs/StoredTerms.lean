import Backslice.Arena
import Backslice.Proofs.Lists
import Backslice.Proofs.Sorts
import Backslice.Proofs.TableSearch

/-!
# The terms an arena holds

An arena holds a list of distinct terms, the term with handle `i` in place `i`,
counted from one: the node with this handle reads as the term, with the terms
before it for its children. Storing a term finds its place or appends it, after
its subterms, and moves no other term; nothing but these subterms is new.

That equal terms get one handle rests on three facts. Names are distinct, so
that a symbol stands for one name; the terms of smaller handles are distinct, so
that a node is determined by its term; and the table finds a node that it holds.
-/

namespace Backslice

/-- The term in a place of a list, counted from one. -/
def termAt (ts : List Term) : Nat → Option Term
  | 0 => none
  | i + 1 => ts[i]?

theorem mem_of_termAt {ts : List Term} {i : Nat} {t : Term} (h : termAt ts i = some t) : t ∈ ts := by
  cases i with
  | zero => exact absurd h (by simp [termAt])
  | succ i => exact List.mem_of_getElem? h

theorem termAt_mono {ts us : List Term} (h : ts <+: us) {i : Nat} {t : Term} (hi : termAt ts i = some t) :
    termAt us i = some t := by
  obtain ⟨rest, rfl⟩ := h
  cases i with
  | zero => exact absurd hi (by simp [termAt])
  | succ i =>
      have hlt : i < ts.length := (List.getElem?_eq_some_iff.1 hi).1
      simpa [termAt, List.getElem?_append_left hlt] using hi

theorem termAt_take (ts : List Term) (k i : Nat) : termAt (ts.take k) i = if i < k + 1 then termAt ts i else none := by
  cases i with
  | zero => simp [termAt]
  | succ i => simp [termAt, List.getElem?_take]

theorem termAt_inj {ts : List Term} (h : ts.Nodup) {i j : Nat} {t : Term} (hi : termAt ts i = some t)
    (hj : termAt ts j = some t) : i = j := by
  cases i with
  | zero => exact absurd hi (by simp [termAt])
  | succ i =>
      cases j with
      | zero => exact absurd hj (by simp [termAt])
      | succ j =>
          have hlt : i < ts.length := (List.getElem?_eq_some_iff.1 hi).1
          exact congrArg (· + 1) ((List.getElem?_inj hlt h).1 (hi.trans hj.symm))

theorem map_termAt_inj {ts : List Term} (h : ts.Nodup) {is js : List Nat} {us : List Term}
    (hi : is.map (termAt ts) = us.map some) (hj : js.map (termAt ts) = us.map some) : is = js := by
  induction is generalizing js us with
  | nil => cases us <;> cases js <;> simp_all
  | cons i is ih =>
      cases us with
      | nil => simp at hi
      | cons u us =>
          cases js with
          | nil => simp at hj
          | cons j js =>
              simp only [List.map_cons, List.cons.injEq] at hi hj
              rw [termAt_inj h hi.1 hj.1, ih hi.2 hj.2]

theorem map_termAt_filter {ts : List Term} (h : ts.Nodup) {is js : List Nat} {us vs : List Term}
    (hi : is.map (termAt ts) = us.map some) (hj : js.map (termAt ts) = vs.map some) :
    (js.filter (· ∉ is)).map (termAt ts) = (vs.filter (· ∉ us)).map some := by
  have hmem : ∀ {j : Nat} {v : Term}, termAt ts j = some v → (j ∈ is ↔ v ∈ us) := by
    intro j v hv
    have hplace : some v ∈ is.map (termAt ts) ↔ j ∈ is := by
      rw [List.mem_map]
      constructor
      · rintro ⟨i, hmem, hiv⟩
        exact termAt_inj h hiv hv ▸ hmem
      · exact fun hmem => ⟨j, hmem, hv⟩
    rw [← hplace, hi]
    simp
  induction js generalizing vs with
  | nil =>
      cases vs with
      | nil => rfl
      | cons v vs => cases hj
  | cons j js ih =>
      cases vs with
      | nil => cases hj
      | cons v vs =>
          obtain ⟨hfirst, hrest⟩ := List.cons.inj hj
          by_cases hv : v ∈ us
          · simp only [List.filter_cons, (hmem hfirst).2 hv, hv, not_true, decide_false, ih hrest, Bool.false_eq_true,
              if_false]
          · simp only [List.filter_cons, mt (hmem hfirst).1 hv, hv, not_false_iff, decide_true, if_true, List.map_cons,
              ih hrest, hfirst]

theorem getElem?_of_idxOf? {names : Array String} {n : String} {s : Nat} (h : names.idxOf? n = some s) :
    names[s]? = some n := by
  rw [Array.idxOf?_eq_map_finIdxOf?_val] at h
  obtain ⟨place, hplace, rfl⟩ := Option.map_eq_some_iff.1 h
  have hn : names[place] = n := (Array.finIdxOf?_eq_some_iff.1 hplace).1
  simpa using hn

theorem symbol_inj {names : Array String} (h : names.toList.Nodup) {s s' : Nat} {n : String} (hs : names[s]? = some n)
    (hs' : names[s']? = some n) : s = s' := by
  rw [← Array.getElem?_toList] at hs hs'
  exact (List.getElem?_inj (List.getElem?_eq_some_iff.1 hs).1 h).1 (hs.trans hs'.symm)

namespace Node

theorem term?_mono {names names' : Array String} {read read' : Nat → Option Term} {node : Node} {t : Term}
    (hnames : ∀ {s : Nat} {n : String}, names[s]? = some n → names'[s]? = some n)
    (hread : ∀ {c : Nat} {u : Term}, read c = some u → read' c = some u) (h : node.term? names read = some t) :
    node.term? names' read' = some t := by
  have hall : ∀ {cs : List Nat} {us : List Term}, cs.mapM read = some us → cs.mapM read' = some us := by
    intro cs us hcs
    rw [List.mapM_eq_some_iff] at hcs ⊢
    exact List.map_eq_some_mono hread hcs
  cases node <;> simp only [term?, Option.map_eq_some_iff, Option.bind_eq_bind, Option.bind_eq_some_iff] at h ⊢ <;> grind

theorem exists_of_mem_children {names : Array String} {read : Nat → Option Term} {node : Node} {t : Term}
    (h : node.term? names read = some t) {c : Nat} (hc : c ∈ node.children) : ∃ u, read c = some u := by
  have hall : ∀ {cs : List Nat} {us : List Term}, cs.mapM read = some us → c ∈ cs → ∃ u, read c = some u := by
    intro cs us hcs hc
    have hmem : read c ∈ us.map some := List.mapM_eq_some_iff.1 hcs ▸ List.mem_map_of_mem hc
    obtain ⟨u, -, hu⟩ := List.mem_map.1 hmem
    exact ⟨u, hu.symm⟩
  cases node <;>
    simp only [term?, children, Option.map_eq_some_iff, Option.bind_eq_bind, Option.bind_eq_some_iff,
      List.mem_cons, List.not_mem_nil, or_false] at h hc <;> grind

theorem exists_of_mem_children_term {names : Array String} {read : Nat → Option Term} {node : Node} {t : Term}
    (h : node.term? names read = some t) {u : Term} (hu : u ∈ t.children) : ∃ c ∈ node.children, read c = some u := by
  have hall : ∀ {cs : List Nat} {us : List Term}, cs.mapM read = some us → u ∈ us → ∃ c ∈ cs, read c = some u :=
    fun hcs hu => List.exists_of_mem_mapM hcs hu
  cases node <;>
    simp only [term?, Option.map_eq_some_iff, Option.bind_eq_bind, Option.bind_eq_some_iff, Option.some.injEq] at h <;>
    grind [Term.children, children]

/-- Among distinct names and distinct terms, a node is determined by its term. -/
theorem term?_inj {names : Array String} (hnames : names.toList.Nodup) {ts : List Term} (hts : ts.Nodup)
    {node node' : Node} {t : Term} (h : node.term? names (termAt ts) = some t)
    (h' : node'.term? names (termAt ts) = some t) : node = node' := by
  have hsymbol : ∀ {s s' : Nat} {n : String}, names[s]? = some n → names[s']? = some n → s = s' := symbol_inj hnames
  have hone : ∀ {i j : Nat} {u : Term}, termAt ts i = some u → termAt ts j = some u → i = j := termAt_inj hts
  have hall : ∀ {is js : List Nat} {us : List Term}, is.mapM (termAt ts) = some us → js.mapM (termAt ts) = some us →
      is = js := fun hi hj => map_termAt_inj hts (List.mapM_eq_some_iff.1 hi) (List.mapM_eq_some_iff.1 hj)
  cases node <;>
    simp only [term?, Option.map_eq_some_iff, Option.bind_eq_bind, Option.bind_eq_some_iff] at h <;>
    cases node' <;>
    simp only [term?, Option.map_eq_some_iff, Option.bind_eq_bind, Option.bind_eq_some_iff] at h' <;> grind

end Node

namespace Arena

/-- An arena that holds the terms of a list, each in the place of its handle. -/
structure Holds (a : Arena) (ts : List Term) : Prop where
  names_nodup : a.names.toList.Nodup
  terms_nodup : ts.Nodup
  chained : a.nodes.IsChained
  length_eq : ts.length = a.size
  reads : ∀ {k : Nat} {node : Node}, a.nodes.toList[k]? = some node →
    node.term? a.names (termAt (ts.take k)) = ts[k]?

namespace Holds

variable {a : Arena} {ts : List Term}

theorem length_toList (h : a.Holds ts) : a.nodes.toList.length = ts.length := by
  rw [UniqueTable.length_toList]
  exact h.length_eq.symm

/-- Every stored node reads as the term in its place, with the terms before it. -/
theorem read_at (h : a.Holds ts) {k : Nat} {node : Node} (hk : a.nodes.toList[k]? = some node) :
    ∃ t, ts[k]? = some t ∧ node.term? a.names (termAt (ts.take k)) = some t := by
  have hlt : k < ts.length := h.length_toList ▸ (List.getElem?_eq_some_iff.1 hk).1
  exact ⟨ts[k], List.getElem?_eq_getElem hlt, (h.reads hk).trans (List.getElem?_eq_getElem hlt)⟩

/-- Every stored node reads as the term in its place, with all the terms. -/
theorem read_whole (h : a.Holds ts) {k : Nat} {node : Node} (hk : a.nodes.toList[k]? = some node) :
    ∃ t, ts[k]? = some t ∧ node.term? a.names (termAt ts) = some t := by
  obtain ⟨t, ht, hread⟩ := h.read_at hk
  have htake : ts.take k <+: ts := List.take_prefix k ts
  exact ⟨t, ht, Node.term?_mono id (termAt_mono htake) hread⟩

theorem exists_term (h : a.Holds ts) {i : Nat} {node : Node} (hi : a.nodes.valueAt i = .ok node) :
    ∃ t, termAt ts i = some t ∧ node.term? a.names (termAt ts) = some t := by
  obtain ⟨k, rfl, hk⟩ := UniqueTable.valueAt_eq_ok.1 hi
  exact h.read_whole hk

theorem exists_valueAt (h : a.Holds ts) {i : Nat} {t : Term} (hi : termAt ts i = some t) :
    ∃ node, a.nodes.valueAt i = .ok node ∧ node.term? a.names (termAt ts) = some t := by
  cases i with
  | zero => exact absurd hi (by simp [termAt])
  | succ k =>
      have hlt : k < a.nodes.toList.length := h.length_toList ▸ (List.getElem?_eq_some_iff.1 hi).1
      obtain ⟨u, hu, hread⟩ := h.read_whole (List.getElem?_eq_getElem hlt)
      obtain rfl := Option.some.inj (hu.symm.trans hi)
      exact ⟨_, UniqueTable.valueAt_eq_ok.2 ⟨k, rfl, List.getElem?_eq_getElem hlt⟩, hread⟩

theorem exists_node (h : a.Holds ts) {i : Nat} {t : Term} (hi : termAt ts i = some t) :
    ∃ node ∈ a.nodes.toList, node.term? a.names (termAt ts) = some t := by
  obtain ⟨node, hnode, hread⟩ := h.exists_valueAt hi
  obtain ⟨k, -, hk⟩ := UniqueTable.valueAt_eq_ok.1 hnode
  exact ⟨node, List.mem_of_getElem? hk, hread⟩

theorem mem_of_mem_subterms (h : a.Holds ts) {t u : Term} (ht : t ∈ ts) (hu : u ∈ t.subterms) : u ∈ ts := by
  induction t using Term.inductionOnChildren with
  | step t ih =>
      rw [Term.subterms_eq] at hu
      rcases List.mem_cons.1 hu with rfl | hu
      · exact ht
      · obtain ⟨c, hc, hu⟩ := List.mem_flatMap.1 hu
        obtain ⟨k, hk⟩ := List.mem_iff_getElem?.1 ht
        obtain ⟨node, -, hread⟩ := h.exists_node (i := k + 1) hk
        obtain ⟨j, -, hj⟩ := Node.exists_of_mem_children_term hread hc
        exact ih c hc (mem_of_termAt hj) hu

theorem term?_eq (h : a.Holds ts) (i : Nat) : a.term? i = termAt ts i := by
  induction i using Nat.strongRecOn with
  | ind i ih =>
    rw [term?]
    cases hvalue : a.nodes.valueAt i with
    | error e =>
        cases i with
        | zero => rfl
        | succ k =>
            have hnone := UniqueTable.getElem?_toList_of_error hvalue
            rw [List.getElem?_eq_none_iff, h.length_toList] at hnone
            exact (List.getElem?_eq_none_iff.2 hnone).symm
    | ok node =>
        obtain ⟨k, rfl, hk⟩ := UniqueTable.valueAt_eq_ok.1 hvalue
        have hbelow : (fun child => if child < k + 1 then a.term? child else none) = termAt (ts.take k) := by
          funext child
          rw [termAt_take]
          split
          next hchild => exact ih child hchild
          next => rfl
        dsimp only
        rw [hbelow]
        exact h.reads hk

/-- Children have smaller handles than their node, and handles are not zero. -/
theorem lt_of_mem_children (h : a.Holds ts) {i : Nat} {node : Node} (hi : a.nodes.valueAt i = .ok node) {c : Nat}
    (hc : c ∈ node.children) : 0 < c ∧ c < i := by
  obtain ⟨k, rfl, hk⟩ := UniqueTable.valueAt_eq_ok.1 hi
  obtain ⟨t, -, ht⟩ := h.read_at hk
  obtain ⟨u, hu⟩ := Node.exists_of_mem_children ht hc
  cases c with
  | zero => exact absurd hu (by simp [termAt])
  | succ c =>
      have hlt : c < (ts.take k).length := (List.getElem?_eq_some_iff.1 hu).1
      rw [List.length_take] at hlt
      omega

theorem internName (h : a.Holds ts) (n : String) :
    (a.internName n).2.Holds ts ∧ (a.internName n).2.names[(a.internName n).1]? = some n := by
  unfold Arena.internName
  split
  next s hs =>
    exact ⟨h, getElem?_of_idxOf? hs⟩
  next hnone =>
    have hnew : n ∉ a.names.toList := by simpa using Array.idxOf?_eq_none_iff.1 hnone
    refine ⟨{ h with names_nodup := ?_, reads := fun hk => ?_ }, by simp⟩
    · rw [Array.toList_push, List.nodup_append]
      refine ⟨h.names_nodup, by simp, fun m hm m' hm' => ?_⟩
      rintro rfl
      exact hnew (List.mem_singleton.1 hm' ▸ hm)
    · obtain ⟨t, htk, ht⟩ := h.read_at hk
      rw [htk]
      refine Node.term?_mono (fun {s m} hs => ?_) id ht
      have hlt : s < a.names.size := (Array.getElem?_eq_some_iff.1 hs).1
      simpa [Array.getElem?_push_lt hlt, hlt] using hs

end Holds

/-- A handle of `t`, and an arena that holds the terms of `ts` and possibly more, which are parts of `t`. -/
def IsInterned (ts : List Term) (t : Term) (result : Nat × Arena) : Prop :=
  ∃ us, result.2.Holds us ∧ ts <+: us ∧ termAt us result.1 = some t ∧ ∀ u ∈ us, u ∈ ts ∨ u ∈ t.subterms

theorem IsInterned.of_le {ts us : List Term} (h : ts <+: us) {t : Term} (hparts : ∀ u ∈ us, u ∈ ts ∨ u ∈ t.subterms)
    {result : Nat × Arena} (hinterned : IsInterned us t result) : IsInterned ts t result := by
  obtain ⟨vs, hholds, hmore, hi, hparts'⟩ := hinterned
  exact ⟨vs, hholds, h.trans hmore, hi, fun v hv => (hparts' v hv).elim (hparts v) Or.inr⟩

/-- A node whose term is known is found at this term, or appended with it. -/
theorem Holds.internNode {a : Arena} {ts : List Term} (h : a.Holds ts) {node : Node} {t : Term}
    (hnode : node.term? a.names (termAt ts) = some t) : IsInterned ts t (a.internNode node) := by
  rcases h.chained.insert_cases node with ⟨k, hinsert, hk⟩ | ⟨hnew, hinsert⟩
  · obtain ⟨u, hu, hread⟩ := h.read_whole hk
    simp only [Arena.internNode, hinsert]
    exact ⟨ts, h, List.prefix_refl ts, hu.trans (hread.symm.trans hnode), fun _ => Or.inl⟩
  · -- a term that is held has a node, and it would be this one
    have hfresh : t ∉ ts := by
      intro ht
      obtain ⟨k, hk⟩ := List.mem_iff_getElem?.1 ht
      obtain ⟨node', hstored, hread⟩ := h.exists_node (i := k + 1) hk
      exact hnew (Node.term?_inj h.names_nodup h.terms_nodup hnode hread ▸ hstored)
    simp only [Arena.internNode, hinsert]
    refine ⟨ts ++ [t], ⟨h.names_nodup, ?_, h.chained.append node, ?_, fun {k node'} hk => ?_⟩, List.prefix_append ts [t], ?_, ?_⟩
    · rw [List.nodup_append]
      refine ⟨h.terms_nodup, by simp, fun u hu u' hu' => ?_⟩
      rintro rfl
      exact hfresh (List.mem_singleton.1 hu' ▸ hu)
    · simpa [size] using h.length_eq
    · rw [UniqueTable.toList_append] at hk
      rcases Nat.lt_or_ge k ts.length with hold | hend
      · rw [List.getElem?_append_left (h.length_toList.symm ▸ hold)] at hk
        rw [List.take_append_of_le_length (Nat.le_of_lt hold), List.getElem?_append_left hold]
        exact h.reads hk
      · have hlast : k = ts.length := by
          have := (List.getElem?_eq_some_iff.1 hk).1
          rw [List.length_append, h.length_toList, List.length_singleton] at this
          omega
        subst hlast
        rw [← h.length_toList, List.getElem?_concat_length] at hk
        obtain rfl := Option.some.inj hk
        rw [List.take_left, List.getElem?_concat_length]
        exact hnode
    · have hsize : a.nodes.size = ts.length := h.length_eq.symm
      simp [termAt, hsize]
    · intro u hu
      refine (List.mem_append.1 hu).imp_right fun hlast => ?_
      rw [List.mem_singleton.1 hlast]
      exact Term.mem_subterms_self t

/-- Handles of the terms `us`, and an arena that holds the terms of `ts` and possibly more, which are parts of these. -/
def AreInterned (ts us : List Term) (result : List Nat × Arena) : Prop :=
  ∃ vs, result.2.Holds vs ∧ ts <+: vs ∧ result.1.map (termAt vs) = us.map some ∧
    ∀ v ∈ vs, v ∈ ts ∨ ∃ u ∈ us, v ∈ u.subterms

theorem mem_or_mem_subterms {ts : List Term} {t c u : Term} (hc : c ∈ t.children)
    (hu : u ∈ ts ∨ u ∈ c.subterms) : u ∈ ts ∨ u ∈ t.subterms :=
  hu.imp_right (Term.mem_subterms_of_mem_children hc)

mutual

theorem Holds.intern {a : Arena} {ts : List Term} (h : a.Holds ts) : (t : Term) → IsInterned ts t (a.intern t)
  | .const v => h.internNode rfl
  | .bool b => h.internNode rfl
  | .var n => by
      obtain ⟨hholds, hn⟩ := h.internName n
      have hnode : (Node.var (a.internName n).1).term? (a.internName n).2.names (termAt ts) = some (.var n) := by
        simp [Node.term?, hn]
      exact hholds.internNode hnode
  | .reg n o s => by
      obtain ⟨hholds, hn⟩ := h.internName n
      have hnode : (Node.reg (a.internName n).1 o s).term? (a.internName n).2.names (termAt ts) = some (.reg n o s) := by
        simp [Node.term?, hn]
      exact hholds.internNode hnode
  | .mem t | .unary _ t | .not t => by
      obtain ⟨us, hus, hmore, hi, hparts⟩ := h.intern t
      exact (hus.internNode (by simp [Node.term?, hi])).of_le hmore fun u hu =>
        mem_or_mem_subterms (by simp [Term.children]) (hparts u hu)
  | .binary _ t u | .eq t u | .quantified _ t u => by
      obtain ⟨us, hus, hmore, hi, hparts⟩ := h.intern t
      obtain ⟨vs, hvs, hmore', hj, hparts'⟩ := hus.intern u
      -- Storing the second child leaves the first one in its place.
      have hi' := termAt_mono hmore' hi
      refine (hvs.internNode (by simp [Node.term?, hi', hj])).of_le (hmore.trans hmore') fun v hv => ?_
      refine (hparts' v hv).elim (fun hv => ?_) fun hv => mem_or_mem_subterms (by simp [Term.children]) (Or.inr hv)
      exact mem_or_mem_subterms (by simp [Term.children]) (hparts v hv)
  | .and ts' | .or ts' => by
      obtain ⟨us, hus, hmore, his, hparts⟩ := h.internAll ts'
      refine (hus.internNode (by simp [Node.term?, List.mapM_eq_some_iff.2 his])).of_le hmore fun u hu => ?_
      refine (hparts u hu).imp_right fun hpart => ?_
      obtain ⟨c, hc, hu⟩ := hpart
      exact Term.mem_subterms_of_mem_children hc hu
  | .ite c t u => by
      obtain ⟨us, hus, hmore, hi, hparts⟩ := h.intern c
      obtain ⟨vs, hvs, hmore', hj, hparts'⟩ := hus.intern t
      obtain ⟨ws, hws, hmore'', hk, hparts''⟩ := hvs.intern u
      have hi' := termAt_mono hmore'' (termAt_mono hmore' hi)
      have hj' := termAt_mono hmore'' hj
      refine (hws.internNode (by simp [Node.term?, hi', hj', hk])).of_le (hmore.trans (hmore'.trans hmore''))
        fun v hv => ?_
      refine (hparts'' v hv).elim (fun hv => ?_) fun hv => mem_or_mem_subterms (by simp [Term.children]) (Or.inr hv)
      refine (hparts' v hv).elim (fun hv => ?_) fun hv => mem_or_mem_subterms (by simp [Term.children]) (Or.inr hv)
      exact mem_or_mem_subterms (by simp [Term.children]) (hparts v hv)

theorem Holds.internAll {a : Arena} {ts : List Term} (h : a.Holds ts) :
    (us : List Term) → AreInterned ts us (a.internAll us)
  | [] => ⟨ts, h, List.prefix_refl ts, rfl, fun _ => Or.inl⟩
  | t :: us => by
      obtain ⟨vs, hvs, hmore, hi, hparts⟩ := h.intern t
      obtain ⟨ws, hws, hmore', his, hparts'⟩ := hvs.internAll us
      refine ⟨ws, hws, hmore.trans hmore', ?_, fun w hw => ?_⟩
      · simp only [Arena.internAll, List.map_cons, termAt_mono hmore' hi, his]
      · rcases hparts' w hw with hw | ⟨u, hu, hw⟩
        · exact (hparts w hw).imp_right fun hw => ⟨t, List.mem_cons_self, hw⟩
        · exact Or.inr ⟨u, List.mem_cons_of_mem t hu, hw⟩

end

namespace Holds

variable {a : Arena} {ts : List Term}

theorem internName_eq (h : a.Holds ts) {s : Nat} {n : String} (hs : a.names[s]? = some n) : a.internName n = (s, a) := by
  unfold Arena.internName
  split
  next s' hfound => rw [symbol_inj h.names_nodup hs (getElem?_of_idxOf? hfound)]
  next hnone =>
    obtain ⟨hlt, rfl⟩ := Array.getElem?_eq_some_iff.1 hs
    exact absurd (Array.getElem_mem hlt) (Array.idxOf?_eq_none_iff.1 hnone)

theorem internNode_eq (h : a.Holds ts) {node : Node} {t : Term} {i : Nat}
    (hnode : node.term? a.names (termAt ts) = some t) (hi : termAt ts i = some t) : a.internNode node = (i, a) := by
  rcases h.chained.insert_cases node with ⟨k, hinsert, hk⟩ | ⟨hnew, hinsert⟩
  · obtain ⟨u, hu, hread⟩ := h.read_whole hk
    obtain rfl := Option.some.inj (hread.symm.trans hnode)
    have hplace : i = k + 1 := termAt_inj h.terms_nodup hi hu
    rw [Arena.internNode, hinsert, hplace]
  · obtain ⟨node', hstored, hread⟩ := h.exists_node hi
    exact absurd (Node.term?_inj h.names_nodup h.terms_nodup hnode hread ▸ hstored) hnew

theorem internAll_eq {us : List Term} (hfound : ∀ u ∈ us, ∀ i, termAt ts i = some u → a.intern u = (i, a))
    {is : List Nat} (his : is.map (termAt ts) = us.map some) : a.internAll us = (is, a) := by
  induction us generalizing is with
  | nil => simp_all [Arena.internAll]
  | cons u us ih =>
      cases is with
      | nil => simp at his
      | cons i is =>
          simp only [List.map_cons, List.cons.injEq] at his
          have hrest := ih (fun v hv => hfound v (List.mem_cons_of_mem u hv)) his.2
          simp only [Arena.internAll, hfound u List.mem_cons_self i his.1, hrest]

/-- To store a term whose children are found without a change is to store its node. -/
theorem intern_eq_internNode_of_children (h : a.Holds ts) {node : Node} {t : Term}
    (hnode : node.term? a.names (termAt ts) = some t)
    (hfound : ∀ u ∈ t.children, ∀ i, termAt ts i = some u → a.intern u = (i, a)) :
    a.intern t = a.internNode node := by
  cases node with
  | const v | bool v =>
      obtain rfl := Option.some.inj hnode
      rfl
  | var s | reg s o n =>
      obtain ⟨n, hn, rfl⟩ := Option.map_eq_some_iff.1 hnode
      simp only [Arena.intern, h.internName_eq hn]
  | mem c | unary op c | not c =>
      obtain ⟨u, hu, rfl⟩ := Option.map_eq_some_iff.1 hnode
      simp only [Arena.intern, hfound u (by simp [Term.children]) c hu]
  | binary op c d | eq c d | quantified q c d =>
      simp only [Node.term?, Option.bind_eq_bind, Option.bind_eq_some_iff, Option.some.injEq] at hnode
      obtain ⟨t, ht, u, hu, rfl⟩ := hnode
      simp only [Arena.intern, hfound t (by simp [Term.children]) c ht, hfound u (by simp [Term.children]) d hu]
  | and cs | or cs =>
      obtain ⟨us, hus, rfl⟩ := Option.map_eq_some_iff.1 hnode
      have hall : a.internAll us = (cs, a) := internAll_eq hfound (List.mapM_eq_some_iff.1 hus)
      simp only [Arena.intern, hall]
  | ite c d e =>
      simp only [Node.term?, Option.bind_eq_bind, Option.bind_eq_some_iff, Option.some.injEq] at hnode
      obtain ⟨t, ht, u, hu, v, hv, rfl⟩ := hnode
      simp only [Arena.intern, hfound t (by simp [Term.children]) c ht, hfound u (by simp [Term.children]) d hu,
        hfound v (by simp [Term.children]) e hv]

/-- A term is stored once: storing it again finds its handle, and changes nothing. -/
theorem intern_eq (h : a.Holds ts) {i : Nat} {t : Term} (hi : termAt ts i = some t) : a.intern t = (i, a) := by
  induction t using Term.inductionOnChildren generalizing i with
  | step t ih =>
      obtain ⟨node, -, hnode⟩ := h.exists_node hi
      rw [h.intern_eq_internNode_of_children hnode fun u hu j hj => ih u hu hj]
      exact h.internNode_eq hnode hi

theorem intern_eq_internNode (h : a.Holds ts) {node : Node} {t : Term}
    (hnode : node.term? a.names (termAt ts) = some t) : a.intern t = a.internNode node :=
  h.intern_eq_internNode_of_children hnode fun _ _ _ hi => h.intern_eq hi

end Holds

/-- Storing terms moves no term that is held, and stores nothing but their parts. -/
theorem Holds.store {a : Arena} {ts : List Term} (h : a.Holds ts) (us : List Term) :
    ∃ vs, (a.store us).Holds vs ∧ ts <+: vs ∧ ∀ v ∈ vs, v ∈ ts ∨ ∃ u ∈ us, v ∈ u.subterms := by
  obtain ⟨vs, hvs, hmore, -, hparts⟩ := h.internAll us
  exact ⟨vs, hvs, hmore, hparts⟩

theorem holds_nil {nodes : UniqueTable Node Node.hash} (hnodes : nodes.toList = []) (hchained : nodes.IsChained) :
    Holds ⟨nodes, #[]⟩ [] := by
  have hsize : nodes.size = 0 := by rw [← UniqueTable.length_toList, hnodes, List.length_nil]
  exact
    { names_nodup := List.nodup_nil
      terms_nodup := List.nodup_nil
      chained := hchained
      length_eq := hsize.symm
      reads := fun hk => absurd hk (by simp [hnodes]) }

theorem exists_new {bits : Nat} (h : bits ≤ 31) : ∃ a ts, Arena.new bits = .ok a ∧ a.Holds ts := by
  have hempty : Holds ⟨UniqueTable.empty bits, #[]⟩ [] :=
    holds_nil (UniqueTable.toList_empty bits) (UniqueTable.isChained_empty bits)
  obtain ⟨ts, hts, -⟩ := hempty.store [.bool false, .bool true, Term.marker]
  refine ⟨_, ts, ?_, hts⟩
  simp [Arena.new, UniqueTable.withBits, h, bind, Except.bind, pure, Except.pure]

end Arena
end Backslice
