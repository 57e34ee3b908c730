import CrabScheme.Gc.Heap
import CrabScheme.Lib.Worklist

/-!
# Trial deletion

The cycle collector of `cs-gc` walks the registered candidates in three phases. `mark_gray` goes
from the purple candidates along strong references and takes one off a virtual count for every
reference it passes; `scan` paints a gray node white if nothing is left of its count, and
otherwise restores everything it reaches (`scan_black`). What is white in the end is garbage.

The invariant is on the virtual count: it is the strong count without the references held by the
nodes that are not black. A white node has no reference from outside what was marked, and no black
node refers to it, so all references to it are held by white nodes.

## Main results

* `classify_total` — both phases come to an end, with the invariant of the scan.
* `white_unreachable` — no white node is reachable from outside.
-/

namespace CrabScheme.Gc

open Relation

/-- `Color`. -/
inductive Color
  | black
  | gray
  | white
  | purple
deriving DecidableEq

/-- The registry of candidates with their colours. -/
structure Registry where
  addrs : List ℕ
  color : ℕ → Color

variable {a : ℕ}

namespace Registry

/-- `candidate_color`: what is not registered is black. -/
def candidateColor (r : Registry) (a : ℕ) : Color := if a ∈ r.addrs then r.color a else .black

/-- `set_candidate_color`. -/
def setCandidateColor (r : Registry) (a : ℕ) (c : Color) : Registry :=
  if a ∈ r.addrs then { r with color := Function.update r.color a c } else r

/-- `register_cycle_candidate`: a candidate that is registered already keeps its colour. -/
def register (r : Registry) (a : ℕ) : Registry :=
  if a ∈ r.addrs then r
  else { addrs := r.addrs ++ [a], color := Function.update r.color a .purple }

/-- Between two sweeps, candidates are black or purple. -/
def Settled (r : Registry) : Prop :=
  ∀ a, r.candidateColor a = .black ∨ r.candidateColor a = .purple

@[simp] lemma addrs_setCandidateColor (r : Registry) (a : ℕ) (c : Color) :
    (r.setCandidateColor a c).addrs = r.addrs := by
  unfold setCandidateColor
  split <;> rfl

lemma candidateColor_setCandidateColor (r : Registry) (a b : ℕ) (c : Color) :
    (r.setCandidateColor a c).candidateColor b =
      if b = a ∧ a ∈ r.addrs then c else r.candidateColor b := by
  unfold setCandidateColor candidateColor
  by_cases ha : a ∈ r.addrs
  · by_cases hb : b = a
    · subst hb
      simp [ha]
    · simp [ha, hb]
  · simp [ha]

lemma mem_of_candidateColor {r : Registry} (h : r.candidateColor a ≠ .black) : a ∈ r.addrs := by
  by_contra ha
  exact h (if_neg ha)

end Registry

/-- A pass of trial deletion: the registry and the virtual counts. -/
structure Trial where
  reg : Registry
  virtualCount : ℕ → Option ℤ

section Walk

variable (h : Heap) (roots : List Data.Value)

/-- `candidate_strong_count`. -/
def candidateStrongCount (r : Registry) (a : ℕ) : Option ℕ :=
  if a ∈ r.addrs then some (strongCount h roots a) else none

/-- `walk_candidate_children`. -/
def walkCandidateChildren (r : Registry) (a : ℕ) : List ℕ := if a ∈ r.addrs then h.refs a else []

/-- `ensure_virtual`. -/
def Trial.ensureVirtual (t : Trial) (a : ℕ) : Trial :=
  if (t.virtualCount a).isSome then t
  else
    let real : ℕ := (candidateStrongCount h roots t.reg a).getD 0
    { t with virtualCount := Function.update t.virtualCount a (some (real : ℤ)) }

/-- A number is added to a virtual count, if there is one. -/
def Trial.addVirtual (t : Trial) (d : ℤ) (a : ℕ) : Trial :=
  { t with virtualCount := Function.update t.virtualCount a ((t.virtualCount a).map (· + d)) }

/-- One round of `mark_gray`. -/
def markGrayStep (t : Trial) (a : ℕ) : Option (Trial × List ℕ) :=
  if t.reg.candidateColor a = .gray then some (t, [])
  else
    let t := t.ensureVirtual h roots a
    let t := { t with reg := t.reg.setCandidateColor a .gray }
    let kids := walkCandidateChildren h t.reg a
    let t := kids.foldl (fun t k => (t.ensureVirtual h roots k).addVirtual (-1) k) t
    some (t, (kids.filter fun k => t.reg.candidateColor k ≠ .gray).reverse)

/-- One round of `scan_black`. -/
def scanBlackStep (t : Trial) (a : ℕ) : Option (Trial × List ℕ) :=
  if t.reg.candidateColor a = .black then some (t, [])
  else
    let t := { t with reg := t.reg.setCandidateColor a .black }
    let kids := walkCandidateChildren h t.reg a
    let t := kids.foldl (fun t k => t.addVirtual 1 k) t
    some (t, (kids.filter fun k => t.reg.candidateColor k ≠ .black).reverse)

/-- A walk passes every reference of a candidate once: the rounds that suffice. -/
def rounds (r : Registry) : ℕ := ∑ a ∈ r.addrs.toFinset, (h.refs a).length + 1

/-- `mark_gray`. -/
def markGray (t : Trial) (root : ℕ) : Option Trial :=
  Worklist.run (markGrayStep h roots) (rounds h t.reg) t [root]

/-- `scan_black`. -/
def scanBlack (t : Trial) (root : ℕ) : Option Trial :=
  Worklist.run (scanBlackStep h) (rounds h t.reg) t [root]

/-- One round of `scan`. -/
def scanStep (t : Trial) (a : ℕ) : Option (Trial × List ℕ) :=
  if t.reg.candidateColor a ≠ .gray then some (t, [])
  else if 0 < (t.virtualCount a).getD 0 then (scanBlack h t a).map fun t => (t, [])
  else
    let t := { t with reg := t.reg.setCandidateColor a .white }
    let kids := walkCandidateChildren h t.reg a
    some (t, (kids.filter fun k => t.reg.candidateColor k = .gray).reverse)

/-- `scan`. -/
def scan (t : Trial) (root : ℕ) : Option Trial :=
  Worklist.run (scanStep h) (rounds h t.reg) t [root]

/-- **The first two phases of `run`**, over the candidates in the order in which the hash map
lists them. -/
def classify (r : Registry) (order : List ℕ) : Option Trial := do
  let t ← order.foldlM (fun t a =>
    if t.reg.candidateColor a = .purple then markGray h roots t a else some t) ⟨r, fun _ => none⟩
  order.foldlM (fun t a => if t.reg.candidateColor a = .gray then scan h t a else some t) t

end Walk

/-- **The candidate-reachable subgraph**: the registered nodes that a walk from the purple
candidates comes to. -/
def Subgraph (h : Heap) (r : Registry) (a : ℕ) : Prop :=
  ∃ p, r.candidateColor p = .purple ∧ ReflTransGen (fun x y => y ∈ h.refs x ∧ y ∈ r.addrs) p a

/-- **A reference held outside**: by a variable, or by an object that is not in the subgraph. -/
def OutsideRef (h : Heap) (roots : List Data.Value) (r : Registry) (k : ℕ) : Prop :=
  k ∈ rootRefs roots ∨ ∃ x, ¬ Subgraph h r x ∧ k ∈ h.refs x

section Invariants

variable {h : Heap} {roots : List Data.Value} {r : Registry} {t : Trial}

/-! ### Virtual counts -/

/-- The virtual count of an address, which is its strong count as long as it has none. -/
def Trial.virtual (h : Heap) (roots : List Data.Value) (t : Trial) (k : ℕ) : ℤ :=
  (t.virtualCount k).getD (((candidateStrongCount h roots t.reg k).getD 0 : ℕ) : ℤ)

@[simp] lemma reg_ensureVirtual (t : Trial) (a : ℕ) : (t.ensureVirtual h roots a).reg = t.reg := by
  unfold Trial.ensureVirtual
  split <;> rfl

lemma virtualCount_ensureVirtual (t : Trial) (a : ℕ) :
    (t.ensureVirtual h roots a).virtualCount a = some (t.virtual h roots a) := by
  unfold Trial.ensureVirtual Trial.virtual
  cases hv : t.virtualCount a <;> simp [hv]

lemma virtualCount_ensureVirtual_of_ne (t : Trial) {k : ℕ} (hk : k ≠ a) :
    (t.ensureVirtual h roots a).virtualCount k = t.virtualCount k := by
  unfold Trial.ensureVirtual
  split
  · rfl
  · simp [hk]

lemma virtual_ensureVirtual (t : Trial) (a k : ℕ) :
    (t.ensureVirtual h roots a).virtual h roots k = t.virtual h roots k := by
  by_cases hk : k = a
  · subst hk
    rw [Trial.virtual, virtualCount_ensureVirtual]
    rfl
  · rw [Trial.virtual, Trial.virtual, virtualCount_ensureVirtual_of_ne t hk, reg_ensureVirtual]

lemma virtual_countDown (t : Trial) (a k : ℕ) :
    ((t.ensureVirtual h roots a).addVirtual (-1) a).virtual h roots k =
      t.virtual h roots k - if a = k then 1 else 0 := by
  by_cases hk : k = a
  · subst hk
    simp [Trial.virtual, Trial.addVirtual, virtualCount_ensureVirtual]
    rfl
  · have hk' : ¬ a = k := fun heq => hk heq.symm
    simp [Trial.virtual, Trial.addVirtual, virtualCount_ensureVirtual_of_ne t hk, hk, hk']

lemma isSome_countDown (t : Trial) (a k : ℕ) (hk : (t.virtualCount k).isSome = true) :
    (((t.ensureVirtual h roots a).addVirtual (-1) a).virtualCount k).isSome = true := by
  by_cases hka : k = a
  · subst hka
    simp [Trial.addVirtual, virtualCount_ensureVirtual]
  · simp [Trial.addVirtual, virtualCount_ensureVirtual_of_ne t hka, hka, hk]

variable (h roots) in
lemma virtual_decrement (kids : List ℕ) (t : Trial) :
    let t' := kids.foldl (fun t k => (t.ensureVirtual h roots k).addVirtual (-1) k) t
    t'.reg = t.reg ∧ (∀ k, t'.virtual h roots k = t.virtual h roots k - kids.count k) ∧
      ∀ k, (t.virtualCount k).isSome = true → (t'.virtualCount k).isSome = true := by
  induction kids generalizing t with
  | nil => exact ⟨rfl, by simp, by simp⟩
  | cons a kids ih =>
    obtain ⟨hreg, hvirtual, hsome⟩ := ih ((t.ensureVirtual h roots a).addVirtual (-1) a)
    refine ⟨hreg.trans (reg_ensureVirtual t a), fun k => ?_, fun k hk => ?_⟩
    · rw [List.foldl_cons, hvirtual, virtual_countDown]
      by_cases hk : a = k <;> simp [hk]
      omega
    · exact hsome k (isSome_countDown t a k hk)

lemma virtualCount_increment (kids : List ℕ) (t : Trial) :
    let t' := kids.foldl (fun t k => t.addVirtual 1 k) t
    t'.reg = t.reg ∧ ∀ k, t'.virtualCount k = (t.virtualCount k).map (· + (kids.count k : ℤ)) := by
  induction kids generalizing t with
  | nil =>
    simp
  | cons a kids ih =>
    obtain ⟨hreg, hcount⟩ := ih (t.addVirtual 1 a)
    refine ⟨hreg, fun k => ?_⟩
    rw [List.foldl_cons, hcount]
    by_cases hk : k = a
    · subst hk
      cases hv : t.virtualCount k <;> simp [Trial.addVirtual, hv]
      omega
    · have hk' : ¬ a = k := fun heq => hk heq.symm
      simp [Trial.addVirtual, hk, hk']

/-! ### Walks -/

/-- The nodes of a colour, or not of a colour. -/
def nodes (t : Trial) (P : Color → Prop) [DecidablePred P] : Finset ℕ :=
  t.reg.addrs.toFinset.filter fun a => P (t.reg.candidateColor a)

lemma mem_nodes {P : Color → Prop} [DecidablePred P] :
    a ∈ nodes t P ↔ a ∈ t.reg.addrs ∧ P (t.reg.candidateColor a) := by
  rw [nodes, Finset.mem_filter, List.mem_toFinset]

variable {t' : Trial} {stack : List ℕ} {root : ℕ}

lemma candidateColor_of_reg {c : Color} (ha : a ∈ t.reg.addrs)
    (hreg : t'.reg = t.reg.setCandidateColor a c) (b : ℕ) :
    t'.reg.candidateColor b = if b = a then c else t.reg.candidateColor b := by
  rw [hreg, Registry.candidateColor_setCandidateColor]
  simp [ha]

lemma sum_nodes_add_le {P : Color → Prop} [DecidablePred P] {c : Color} (ha : a ∈ t.reg.addrs)
    (hP : P (t.reg.candidateColor a)) (hc : ¬ P c) (hreg : t'.reg = t.reg.setCandidateColor a c)
    (p : ℕ → Bool) : ∑ x ∈ nodes t' P, (h.refs x).length + ((h.refs a).filter p).reverse.length ≤
      ∑ x ∈ nodes t P, (h.refs x).length := by
  have hcolor := candidateColor_of_reg ha hreg
  have hins : insert a (nodes t' P) ⊆ nodes t P := by
    refine Finset.insert_subset_iff.2 ⟨mem_nodes.2 ⟨ha, hP⟩, fun b hb => ?_⟩
    rw [mem_nodes, hcolor, hreg, Registry.addrs_setCandidateColor] at hb
    rw [mem_nodes]
    refine ⟨hb.1, ?_⟩
    have hPb := hb.2
    split at hPb
    · exact absurd hPb hc
    · exact hPb
  have hnot : a ∉ nodes t' P := by
    rw [mem_nodes, hcolor, if_pos rfl]
    exact fun hPa => hc hPa.2
  have hsum := Finset.sum_le_sum_of_subset (f := fun x => (h.refs x).length) hins
  rw [Finset.sum_insert hnot] at hsum
  have hle := List.length_filter_le p (h.refs a)
  rw [List.length_reverse]
  omega

lemma sum_nodes_lt_rounds (P : Color → Prop) [DecidablePred P] :
    ∑ x ∈ nodes t P, (h.refs x).length + 1 ≤ rounds h t.reg :=
  Nat.add_le_add_right (Finset.sum_le_sum_of_subset (Finset.filter_subset _ _)) 1

/-! ### Marking -/

/-- **The invariant of marking**, with the stack of the walk: a virtual count is the strong count
without the references of gray nodes, and the children of gray nodes are gray or will be. -/
structure Marking (h : Heap) (roots : List Data.Value) (r : Registry) (t : Trial)
    (stack : List ℕ) : Prop where
  addrs : t.reg.addrs = r.addrs
  color : ∀ a, t.reg.candidateColor a = r.candidateColor a ∨ t.reg.candidateColor a = .gray
  gray : ∀ a, t.reg.candidateColor a = .gray → Subgraph h r a
  pending : ∀ a ∈ stack, a ∈ r.addrs → Subgraph h r a
  closed : ∀ a, t.reg.candidateColor a = .gray → ∀ k ∈ h.refs a, k ∈ r.addrs →
    t.reg.candidateColor k = .gray ∨ k ∈ stack
  virtual : ∀ k, t.virtual h roots k = (((candidateStrongCount h roots r k).getD 0 : ℕ) : ℤ) -
    ∑ x ∈ nodes t (· = .gray), (((h.refs x).count k : ℕ) : ℤ)
  counted : ∀ a, t.reg.candidateColor a = .gray → (t.virtualCount a).isSome = true

lemma Subgraph.mem (ha : Subgraph h r a) : a ∈ r.addrs := by
  obtain ⟨p, hp, hpa⟩ := ha
  rcases hpa.cases_tail with rfl | ⟨x, -, -, hr⟩
  · exact Registry.mem_of_candidateColor (by simp [hp])
  · exact hr

lemma Subgraph.tail {k : ℕ} (ha : Subgraph h r a) (hk : k ∈ h.refs a) (hr : k ∈ r.addrs) :
    Subgraph h r k := by
  obtain ⟨p, hp, hpa⟩ := ha
  exact ⟨p, hp, hpa.tail ⟨hk, hr⟩⟩

lemma markGrayStep_eq (ha : t.reg.candidateColor a ≠ .gray) :
    ∃ t', markGrayStep h roots t a = some (t', ((walkCandidateChildren h t.reg a).filter
        fun k => t'.reg.candidateColor k ≠ .gray).reverse) ∧
      t'.reg = t.reg.setCandidateColor a .gray ∧
      (∀ k, t'.virtual h roots k =
        t.virtual h roots k - (((walkCandidateChildren h t.reg a).count k : ℕ) : ℤ)) ∧
      (∀ k, (t.virtualCount k).isSome = true → (t'.virtualCount k).isSome = true) ∧
      (t'.virtualCount a).isSome = true := by
  have hkids : walkCandidateChildren h (t.reg.setCandidateColor a .gray) a =
      walkCandidateChildren h t.reg a := by simp [walkCandidateChildren]
  have hsome : ∀ k, (t.virtualCount k).isSome = true →
      ((t.ensureVirtual h roots a).virtualCount k).isSome = true := by
    intro k hk
    by_cases hka : k = a
    · rw [hka, virtualCount_ensureVirtual]; rfl
    · rwa [virtualCount_ensureVirtual_of_ne t hka]
  obtain ⟨hreg, hvirtual, hmono⟩ := virtual_decrement h roots
    (walkCandidateChildren h t.reg a)
    { t.ensureVirtual h roots a with reg := t.reg.setCandidateColor a .gray }
  refine ⟨_, by simp only [markGrayStep, if_neg ha, reg_ensureVirtual, hkids], hreg,
    fun k => ?_, fun k hk => hmono k (hsome k hk), hmono a ?_⟩
  · rw [hvirtual]
    rw [← virtual_ensureVirtual t a k]
    simp [Trial.virtual, candidateStrongCount]
  · rw [virtualCount_ensureVirtual]; rfl

section

variable (hm : Marking h roots r t (a :: stack))

include hm

lemma Marking.skip (ha : t.reg.candidateColor a = .gray) : Marking h roots r t stack where
  addrs := hm.addrs
  color := hm.color
  gray := hm.gray
  pending := fun b hb => hm.pending b (List.mem_cons_of_mem _ hb)
  closed := by
    intro b hb k hk hr
    rcases hm.closed b hb k hk hr with hgray | hmem
    · exact .inl hgray
    · rcases List.mem_cons.1 hmem with rfl | hmem
      · exact .inl ha
      · exact .inr hmem
  virtual := hm.virtual
  counted := hm.counted

lemma Marking.paint (ha : t.reg.candidateColor a ≠ .gray) (hmem : a ∈ t.reg.addrs)
    (hreg : t'.reg = t.reg.setCandidateColor a .gray)
    (hvirtual : ∀ k, t'.virtual h roots k = t.virtual h roots k - (((h.refs a).count k : ℕ) : ℤ))
    (hmono : ∀ k, (t.virtualCount k).isSome = true → (t'.virtualCount k).isSome = true)
    (hsome : (t'.virtualCount a).isSome = true) : Marking h roots r t' (((h.refs a).filter
      fun k => t'.reg.candidateColor k ≠ .gray).reverse ++ stack) := by
  have haddrs : t'.reg.addrs = t.reg.addrs := by rw [hreg, Registry.addrs_setCandidateColor]
  have hcolor := candidateColor_of_reg hmem hreg
  have hgrays : nodes t' (· = .gray) = insert a (nodes t (· = .gray)) := by
    ext b
    rw [Finset.mem_insert, mem_nodes, mem_nodes, haddrs, hcolor]
    by_cases hb : b = a
    · simp [hb, hmem]
    · simp [hb]
  have hsub : Subgraph h r a := hm.pending a List.mem_cons_self (hm.addrs ▸ hmem)
  refine ⟨haddrs.trans hm.addrs, fun b => ?_, fun b hb => ?_, fun b hb hr => ?_,
    fun b hb k hk hr => ?_, fun k => ?_, fun b hb => ?_⟩
  · rw [hcolor]
    split
    · exact .inr rfl
    · exact hm.color b
  · rw [hcolor] at hb
    split at hb
    · rename_i heq
      rwa [heq]
    · exact hm.gray b hb
  · rcases List.mem_append.1 hb with hb | hb
    · rw [List.mem_reverse, List.mem_filter] at hb
      exact hsub.tail hb.1 hr
    · exact hm.pending b (List.mem_cons_of_mem _ hb) hr
  · by_cases hgray : t'.reg.candidateColor k = .gray
    · exact .inl hgray
    · refine .inr ?_
      rw [hcolor] at hb
      split at hb
      · rename_i heq
        subst heq
        refine List.mem_append_left _ (List.mem_reverse.2 (List.mem_filter.2 ⟨hk, ?_⟩))
        simpa using hgray
      · rw [hcolor] at hgray
        split at hgray
        · exact absurd rfl hgray
        · rename_i hne
          rcases hm.closed b hb k hk hr with hg | hmem'
          · exact absurd hg hgray
          · exact List.mem_append_right _ ((List.mem_cons.1 hmem').resolve_left hne)
  · rw [hvirtual, hm.virtual, hgrays, Finset.sum_insert]
    · omega
    · rw [mem_nodes]
      exact fun hg => ha hg.2
  · rw [hcolor] at hb
    split at hb
    · rename_i heq
      rwa [heq]
    · exact hmono b (hm.counted b hb)

lemma Marking.ignore (hmem : a ∉ t.reg.addrs) (hreg : t'.reg = t.reg)
    (hvirtual : ∀ k, t'.virtual h roots k = t.virtual h roots k)
    (hmono : ∀ k, (t.virtualCount k).isSome = true → (t'.virtualCount k).isSome = true) :
    Marking h roots r t' stack where
  addrs := hreg ▸ hm.addrs
  color := hreg ▸ hm.color
  gray := hreg ▸ hm.gray
  pending := fun b hb => hm.pending b (List.mem_cons_of_mem _ hb)
  closed := by
    intro b hb k hk hr
    rw [hreg] at hb ⊢
    refine (hm.closed b hb k hk hr).imp_right fun hmem' => ?_
    refine (List.mem_cons.1 hmem').resolve_left ?_
    rintro rfl
    exact hmem (hm.addrs ▸ hr)
  virtual := by
    intro k
    rw [hvirtual, hm.virtual, nodes, nodes, hreg]
  counted := fun b hb => hmono b (hm.counted b (hreg ▸ hb))

lemma Marking.step : ∃ t' pushed, markGrayStep h roots t a = some (t', pushed) ∧
      Marking h roots r t' (pushed ++ stack) ∧
      (∀ b, t'.reg.candidateColor b =
        if b = a ∧ a ∈ t.reg.addrs then .gray else t.reg.candidateColor b) ∧
      ∑ x ∈ nodes t' (· ≠ .gray), (h.refs x).length + pushed.length ≤
        ∑ x ∈ nodes t (· ≠ .gray), (h.refs x).length := by
  by_cases ha : t.reg.candidateColor a = .gray
  · refine ⟨t, [], if_pos ha, hm.skip ha, fun b => ?_, le_rfl⟩
    split
    · rename_i hb
      rw [hb.1, ha]
    · rfl
  · obtain ⟨t', hstep, hreg, hvirtual, hmono, hsome⟩ :=
      markGrayStep_eq ha
    have hcolor : ∀ b, t'.reg.candidateColor b =
        if b = a ∧ a ∈ t.reg.addrs then .gray else t.reg.candidateColor b := by
      intro b
      rw [hreg, Registry.candidateColor_setCandidateColor]
    refine ⟨t', _, hstep, ?_⟩
    by_cases hmem : a ∈ t.reg.addrs
    · rw [show walkCandidateChildren h t.reg a = h.refs a from if_pos hmem] at hvirtual ⊢
      exact ⟨hm.paint ha hmem hreg hvirtual hmono hsome, hcolor,
        sum_nodes_add_le hmem ha (by simp) hreg _⟩
    · rw [show walkCandidateChildren h t.reg a = [] from if_neg hmem] at hvirtual ⊢
      have hreg' : t'.reg = t.reg := by rw [hreg, Registry.setCandidateColor, if_neg hmem]
      refine ⟨hm.ignore hmem hreg' (fun k => by simpa using hvirtual k) hmono, hcolor, ?_⟩
      rw [nodes, hreg']
      exact le_rfl

end

/-- **`mark_gray`** paints its root gray, and what it reaches. -/
lemma markGray_total (hm : Marking h roots r t []) (hroot : Subgraph h r root) :
    ∃ t', markGray h roots t root = some t' ∧ Marking h roots r t' [] ∧
      (∀ b, t.reg.candidateColor b = .gray → t'.reg.candidateColor b = .gray) ∧
      t'.reg.candidateColor root = .gray := by
  obtain ⟨t', ht', ⟨hm', hgray, hr⟩⟩ := Worklist.run_total (markGrayStep h roots)
    (fun t' stack => Marking h roots r t' stack ∧
      (∀ b, t.reg.candidateColor b = .gray → t'.reg.candidateColor b = .gray) ∧
      (t'.reg.candidateColor root = .gray ∨ root ∈ stack))
    (fun t' => ∑ x ∈ nodes t' (· ≠ .gray), (h.refs x).length)
    (fun s a stack ⟨hs, hgray, hr⟩ => by
      obtain ⟨s', pushed, hstep, hm', hcolor, hle⟩ := hs.step
      have hkeep : ∀ b, s.reg.candidateColor b = .gray → s'.reg.candidateColor b = .gray := by
        intro b hb
        rw [hcolor]
        split
        · rfl
        · exact hb
      refine ⟨s', pushed, hstep, ⟨hm', fun b hb => hkeep b (hgray b hb), ?_⟩, hle⟩
      rcases hr with hr | hr
      · exact .inl (hkeep _ hr)
      · rcases List.mem_cons.1 hr with rfl | hr
        · rw [hcolor, if_pos ⟨rfl, hs.addrs ▸ hroot.mem⟩]
          exact .inl rfl
        · exact .inr (List.mem_append_right _ hr))
    (rounds h t.reg) t [root]
    ⟨⟨hm.addrs, hm.color, hm.gray, fun a ha _ => List.mem_singleton.1 ha ▸ hroot,
      fun a ha k hk hr => .inl ((hm.closed a ha k hk hr).resolve_right (List.not_mem_nil)),
      hm.virtual, hm.counted⟩, fun _ hb => hb, .inr List.mem_cons_self⟩
    (sum_nodes_lt_rounds _)
  exact ⟨t', ht', hm', hgray, hr.resolve_right List.not_mem_nil⟩

lemma Marking.init (hr : r.Settled) : Marking h roots r ⟨r, fun _ => none⟩ [] := by
  have hgray : ∀ a, r.candidateColor a ≠ .gray := by
    intro a ha
    rcases hr a with h' | h' <;> rw [ha] at h' <;> cases h'
  have hnone : nodes (⟨r, fun _ => none⟩ : Trial) (· = .gray) = ∅ :=
    Finset.filter_eq_empty_iff.2 fun a _ => hgray a
  refine ⟨rfl, fun _ => .inl rfl, fun a ha => absurd ha (hgray a), by simp,
    fun a ha => absurd ha (hgray a), fun k => ?_, fun a ha => absurd ha (hgray a)⟩
  rw [hnone]
  simp [Trial.virtual]

variable (h roots) in
/-- **The first phase.** All purple candidates and what they reach are gray. -/
lemma markAll_total (hr : r.Settled) {order : List ℕ} (horder : order.Perm r.addrs) :
    ∃ t, order.foldlM (fun t a =>
        if t.reg.candidateColor a = .purple then markGray h roots t a else some t)
        (⟨r, fun _ => none⟩ : Trial) = some t ∧ Marking h roots r t [] ∧
      ∀ a, t.reg.candidateColor a = .black ∨ t.reg.candidateColor a = .gray := by
  have hpurple : ∀ {t : Trial} {a : ℕ}, Marking h roots r t [] → t.reg.candidateColor a = .purple →
      r.candidateColor a = .purple := by
    intro t a hm ha
    rcases hm.color a with h' | h'
    · rw [← h', ha]
    · rw [ha] at h'
      cases h'
  obtain ⟨t, ht, hm, hnone⟩ := Worklist.foldlM_total
    (f := fun (t : Trial) a =>
      if t.reg.candidateColor a = .purple then markGray h roots t a else some t)
    (fun t rest => Marking h roots r t [] ∧ ∀ a, t.reg.candidateColor a = .purple → a ∈ rest)
    (fun t a rest ⟨hm, hrest⟩ => by
      by_cases ha : t.reg.candidateColor a = .purple
      · obtain ⟨t', ht', hm', hgray, ha'⟩ := markGray_total hm ⟨a, hpurple hm ha, .refl⟩
        refine ⟨t', by rw [if_pos ha, ht'], hm', fun b hb => ?_⟩
        have hbt : t.reg.candidateColor b = .purple := by
          rcases hm.color b with h' | h'
          · rw [h', hpurple hm' hb]
          · rw [hgray b h'] at hb
            cases hb
        refine (List.mem_cons.1 (hrest b hbt)).resolve_left ?_
        rintro rfl
        rw [ha'] at hb
        cases hb
      · refine ⟨t, if_neg ha, hm, fun b hb => (List.mem_cons.1 (hrest b hb)).resolve_left ?_⟩
        rintro rfl
        exact ha hb)
    ⟨Marking.init hr, fun a ha =>
      horder.mem_iff.2 (Registry.mem_of_candidateColor (by simp [show _ = _ from ha]))⟩
  refine ⟨t, ht, hm, fun a => ?_⟩
  rcases hm.color a with h' | h'
  · rcases hr a with hb | hp
    · exact .inl (h'.trans hb)
    · exact absurd (hnone a (h'.trans hp)) List.not_mem_nil
  · exact .inr h'

/-! ### Scanning -/

/-- A node can be reached along a reference held outside a set of nodes. -/
def Anchored (h : Heap) (roots : List Data.Value) (M : Finset ℕ) (a : ℕ) : Prop :=
  ∃ k, (k ∈ rootRefs roots ∨ ∃ x, x ∉ M ∧ k ∈ h.refs x) ∧ ReflTransGen h.Edge k a

/-- **The invariant of the scan** over the marked nodes, with the stack of `scan_black`: the
virtual count of a node is its strong count without the references of the nodes that are not
black; white nodes have no references from outside what was marked; the children of black nodes
are black or will be; and nothing is black without an anchor. -/
structure Scanning (h : Heap) (roots : List Data.Value) (r : Registry) (M : Finset ℕ) (t : Trial)
    (stack : List ℕ) : Prop where
  addrs : t.reg.addrs = r.addrs
  color : ∀ a, a ∉ M → t.reg.candidateColor a = .black
  settled : ∀ a, t.reg.candidateColor a ≠ .purple
  virtual : ∀ k ∈ M, t.virtualCount k = some ((strongCount h roots k : ℤ) -
    ∑ x ∈ M.filter (t.reg.candidateColor · ≠ .black), (((h.refs x).count k : ℕ) : ℤ))
  white : ∀ a, t.reg.candidateColor a = .white →
    strongCount h roots a ≤ ∑ x ∈ M, (h.refs x).count a
  closed : ∀ a ∈ M, t.reg.candidateColor a = .black → ∀ k ∈ h.refs a, k ∈ M →
    t.reg.candidateColor k = .black ∨ k ∈ stack
  anchored : ∀ a ∈ M, t.reg.candidateColor a = .black → Anchored h roots M a

variable {M : Finset ℕ}

lemma Anchored.tail {b : ℕ} (ha : Anchored h roots M a) (hab : b ∈ h.refs a) :
    Anchored h roots M b := by
  obtain ⟨k, hk, hka⟩ := ha
  exact ⟨k, hk, hka.tail hab⟩

lemma Scanning.anchored_of_virtual (hs : Scanning h roots r M t stack) (haM : a ∈ M)
    (hv : 0 < (t.virtualCount a).getD 0) : Anchored h roots M a := by
  rw [hs.virtual a haM, Option.getD_some, ← Nat.cast_sum] at hv
  by_contra hnot
  -- without an anchor, all references to the node are held by nodes that are not black
  have hroots : (rootRefs roots).count a = 0 :=
    List.count_eq_zero_of_not_mem fun hmem => hnot ⟨a, .inl hmem, .refl⟩
  have hrest : ∑ x ∈ Finset.range h.length \ M, (h.refs x).count a = 0 :=
    Finset.sum_eq_zero fun x hx => List.count_eq_zero_of_not_mem fun hmem =>
      hnot ⟨a, .inr ⟨x, (Finset.mem_sdiff.1 hx).2, hmem⟩, .refl⟩
  have hblack : ∑ x ∈ M, (h.refs x).count a =
      ∑ x ∈ M.filter (t.reg.candidateColor · ≠ .black), (h.refs x).count a := by
    symm
    refine Finset.sum_filter_of_ne fun x hx hne hb => hne ?_
    exact List.count_eq_zero_of_not_mem fun hmem => hnot ((hs.anchored x hx hb).tail hmem)
  have hadd := strongCount_eq_add h roots M a
  omega

lemma scanBlackStep_eq (ha : t.reg.candidateColor a ≠ .black) :
    ∃ t', scanBlackStep h t a = some (t', ((h.refs a).filter
        fun k => t'.reg.candidateColor k ≠ .black).reverse) ∧
      t'.reg = t.reg.setCandidateColor a .black ∧
      ∀ k, t'.virtualCount k = (t.virtualCount k).map (· + ((h.refs a).count k : ℤ)) := by
  have hkids : walkCandidateChildren h (t.reg.setCandidateColor a .black) a = h.refs a := by
    simp [walkCandidateChildren, Registry.mem_of_candidateColor ha]
  obtain ⟨hreg, hcount⟩ := virtualCount_increment (h.refs a)
    { t with reg := t.reg.setCandidateColor a .black }
  exact ⟨_, by simp only [scanBlackStep, if_neg ha, hkids], hreg, hcount⟩

lemma Scanning.skip (hs : Scanning h roots r M t (a :: stack))
    (ha : t.reg.candidateColor a = .black) : Scanning h roots r M t stack where
  addrs := hs.addrs
  color := hs.color
  settled := hs.settled
  virtual := hs.virtual
  white := hs.white
  closed := by
    intro b hb hblack k hk hkM
    rcases hs.closed b hb hblack k hk hkM with hblack' | hmem
    · exact .inl hblack'
    · rcases List.mem_cons.1 hmem with rfl | hmem
      · exact .inl ha
      · exact .inr hmem
  anchored := hs.anchored

lemma Scanning.restore (hs : Scanning h roots r M t (a :: stack))
    (ha : t.reg.candidateColor a ≠ .black) (hanchor : Anchored h roots M a)
    (hreg : t'.reg = t.reg.setCandidateColor a .black)
    (hcount : ∀ k, t'.virtualCount k = (t.virtualCount k).map (· + ((h.refs a).count k : ℤ))) :
    Scanning h roots r M t' (((h.refs a).filter
      fun k => t'.reg.candidateColor k ≠ .black).reverse ++ stack) := by
  have haM : a ∈ M := by
    by_contra hnot
    exact ha (hs.color a hnot)
  have hcolor := candidateColor_of_reg (Registry.mem_of_candidateColor ha) hreg
  have hfilter : M.filter (t.reg.candidateColor · ≠ .black) =
      insert a (M.filter (t'.reg.candidateColor · ≠ .black)) := by
    ext b
    rw [Finset.mem_insert, Finset.mem_filter, Finset.mem_filter, hcolor]
    by_cases hb : b = a
    · simp [hb, haM, ha]
    · simp [hb]
  refine ⟨by rw [hreg, Registry.addrs_setCandidateColor, hs.addrs], fun b hb => ?_, fun b => ?_,
    fun k hk => ?_, fun b hb => ?_, fun b hb hblack k hk hkM => ?_, fun b hb hblack => ?_⟩
  · rw [hcolor, hs.color b hb, ite_self]
  · rw [hcolor]
    split
    · nofun
    · exact hs.settled b
  · rw [hcount, hs.virtual k hk, hfilter, Finset.sum_insert, Option.map_some]
    · congr 1
      omega
    · rw [Finset.mem_filter, hcolor, if_pos rfl]
      exact fun hf => hf.2 rfl
  · rw [hcolor] at hb
    split at hb
    · cases hb
    · exact hs.white b hb
  · by_cases hk' : t'.reg.candidateColor k = .black
    · exact .inl hk'
    · refine .inr ?_
      rw [hcolor] at hblack
      split at hblack
      · rename_i heq
        subst heq
        refine List.mem_append_left _ (List.mem_reverse.2 (List.mem_filter.2 ⟨hk, ?_⟩))
        simpa using hk'
      · rw [hcolor] at hk'
        split at hk'
        · exact absurd rfl hk'
        · rename_i hne
          rcases hs.closed b hb hblack k hk hkM with hb' | hmem
          · exact absurd hb' hk'
          · exact List.mem_append_right _ ((List.mem_cons.1 hmem).resolve_left hne)
  · rw [hcolor] at hblack
    split at hblack
    · rename_i heq
      rwa [heq]
    · exact hs.anchored b hb hblack

/-- **`scan_black`** restores its root and what it reaches; no other colour changes. -/
lemma scanBlack_total (hs : Scanning h roots r M t []) (hanchor : Anchored h roots M root) :
    ∃ t', scanBlack h t root = some t' ∧ Scanning h roots r M t' [] ∧
      (∀ b, t'.reg.candidateColor b = t.reg.candidateColor b ∨
        t'.reg.candidateColor b = .black) ∧
      t'.reg.candidateColor root = .black := by
  obtain ⟨t', ht', hs', -, hcolor, hroot⟩ := Worklist.run_total (scanBlackStep h)
    (fun t' stack => Scanning h roots r M t' stack ∧ (∀ b ∈ stack, Anchored h roots M b) ∧
      (∀ b, t'.reg.candidateColor b = t.reg.candidateColor b ∨
        t'.reg.candidateColor b = .black) ∧
      (t'.reg.candidateColor root = .black ∨ root ∈ stack))
    (fun t' => ∑ x ∈ nodes t' (· ≠ .black), (h.refs x).length)
    (fun s a stack ⟨hs, hstack, hcolor, hroot⟩ => by
      by_cases ha : s.reg.candidateColor a = .black
      · refine ⟨s, [], if_pos ha,
          ⟨hs.skip ha, fun b hb => hstack b (List.mem_cons_of_mem a hb), hcolor, ?_⟩, le_rfl⟩
        rcases hroot with hroot | hroot
        · exact .inl hroot
        · rcases List.mem_cons.1 hroot with rfl | hroot
          · exact .inl ha
          · exact .inr hroot
      · obtain ⟨s', hstep, hreg, hcount⟩ := scanBlackStep_eq ha
        have hmem := Registry.mem_of_candidateColor ha
        have hcolor' := candidateColor_of_reg hmem hreg
        have haA := hstack a List.mem_cons_self
        refine ⟨s', _, hstep, ⟨hs.restore ha haA hreg hcount, fun b hb => ?_, fun b => ?_, ?_⟩,
          sum_nodes_add_le hmem ha (by simp) hreg _⟩
        · rcases List.mem_append.1 hb with hb | hb
          · exact haA.tail (List.mem_filter.1 (List.mem_reverse.1 hb)).1
          · exact hstack b (List.mem_cons_of_mem a hb)
        · rw [hcolor']
          split
          · exact .inr rfl
          · exact hcolor b
        · rw [hcolor']
          split
          · exact .inl rfl
          · rename_i hne
            exact hroot.imp_right fun hmem =>
              List.mem_append_right _ ((List.mem_cons.1 hmem).resolve_left hne))
    (rounds h t.reg) t [root]
    ⟨⟨hs.addrs, hs.color, hs.settled, hs.virtual, hs.white, fun a ha hb k hk hkM =>
      .inl ((hs.closed a ha hb k hk hkM).resolve_right List.not_mem_nil), hs.anchored⟩,
      fun b hb => List.mem_singleton.1 hb ▸ hanchor, fun _ => .inl rfl, .inr List.mem_cons_self⟩
    (sum_nodes_lt_rounds _)
  exact ⟨t', ht', hs', hcolor, hroot.resolve_right List.not_mem_nil⟩

lemma Scanning.whiten (hs : Scanning h roots r M t []) (ha : t.reg.candidateColor a = .gray)
    (hzero : (t.virtualCount a).getD 0 ≤ 0) (hreg : t'.reg = t.reg.setCandidateColor a .white)
    (hcount : t'.virtualCount = t.virtualCount) : Scanning h roots r M t' [] := by
  have haM : a ∈ M := by
    by_contra hnot
    rw [hs.color a hnot] at ha
    cases ha
  have hcolor := candidateColor_of_reg
    (Registry.mem_of_candidateColor (show _ ≠ _ by rw [ha]; nofun)) hreg
  have hblack : ∀ b, t'.reg.candidateColor b = .black ↔ t.reg.candidateColor b = .black := by
    intro b
    rw [hcolor]
    split
    · rename_i heq
      simp [heq, ha]
    · rfl
  refine ⟨by rw [hreg, Registry.addrs_setCandidateColor, hs.addrs],
    fun b hb => (hblack b).2 (hs.color b hb), fun b => ?_, fun k hk => ?_, fun b hb => ?_,
    fun b hb hb' k hk hkM =>
      (hs.closed b hb ((hblack b).1 hb') k hk hkM).imp_left (hblack k).2,
    fun b hb hb' => hs.anchored b hb ((hblack b).1 hb')⟩
  · rw [hcolor]
    split
    · nofun
    · exact hs.settled b
  · rw [hcount, hs.virtual k hk]
    simp [hblack]
  · rw [hcolor] at hb
    split at hb
    · rename_i heq
      subst heq
      rw [hs.virtual b haM, Option.getD_some, sub_nonpos] at hzero
      have hle := Finset.sum_le_sum_of_subset (f := fun x => (h.refs x).count b)
        (Finset.filter_subset (t.reg.candidateColor · ≠ .black) M)
      have hcast : (strongCount h roots b : ℤ) ≤ ((∑ x ∈ M.filter
          (t.reg.candidateColor · ≠ .black), (h.refs x).count b : ℕ) : ℤ) := by
        rwa [Nat.cast_sum]
      omega
    · exact hs.white b hb

lemma scanStep_eq (ha : t.reg.candidateColor a = .gray) (hv : ¬ 0 < (t.virtualCount a).getD 0) :
    scanStep h t a = some ({ t with reg := t.reg.setCandidateColor a .white },
      ((h.refs a).filter fun k =>
        (t.reg.setCandidateColor a .white).candidateColor k = .gray).reverse) := by
  have hmem : a ∈ t.reg.addrs := Registry.mem_of_candidateColor (show _ ≠ _ by rw [ha]; nofun)
  have hkids : walkCandidateChildren h (t.reg.setCandidateColor a .white) a = h.refs a := by
    simp [walkCandidateChildren, hmem]
  rw [scanStep, if_neg (not_not.2 ha), if_neg hv]
  simp [hkids]

/-- **`scan`** leaves its root white or black, and paints nothing gray. -/
lemma scan_total (hs : Scanning h roots r M t []) :
    ∃ t', scan h t root = some t' ∧ Scanning h roots r M t' [] ∧
      (∀ b, t'.reg.candidateColor b = .gray → t.reg.candidateColor b = .gray) ∧
      t'.reg.candidateColor root ≠ .gray := by
  obtain ⟨t', ht', hs', hgray, hroot⟩ := Worklist.run_total (scanStep h)
    (fun t' stack => Scanning h roots r M t' [] ∧
      (∀ b, t'.reg.candidateColor b = .gray → t.reg.candidateColor b = .gray) ∧
      (t'.reg.candidateColor root = .gray → root ∈ stack))
    (fun t' => ∑ x ∈ nodes t' (· = .gray), (h.refs x).length)
    (fun s a stack ⟨hs, hgray, hroot⟩ => by
      by_cases ha : s.reg.candidateColor a = .gray
      · have hmem : a ∈ s.reg.addrs :=
          Registry.mem_of_candidateColor (show _ ≠ _ by rw [ha]; nofun)
        by_cases hv : 0 < (s.virtualCount a).getD 0
        · -- an anchor: everything the node reaches is restored
          have haM : a ∈ M := by
            by_contra hnot
            rw [hs.color a hnot] at ha
            cases ha
          obtain ⟨s', hblack, hs', hcolor, ha'⟩ :=
            scanBlack_total hs (hs.anchored_of_virtual haM hv)
          have hgray' : ∀ b, s'.reg.candidateColor b = .gray →
              s.reg.candidateColor b = .gray := by
            intro b hb
            rcases hcolor b with heq | heq
            · rwa [heq] at hb
            · rw [hb] at heq
              cases heq
          refine ⟨s', [], by simp [scanStep, ha, hv, hblack], ⟨hs', fun b hb =>
            hgray b (hgray' b hb), fun hr => ?_⟩, ?_⟩
          · refine (List.mem_cons.1 (hroot (hgray' _ hr))).resolve_left ?_
            rintro rfl
            rw [ha'] at hr
            cases hr
          · rw [List.length_nil, add_zero]
            refine Finset.sum_le_sum_of_subset fun b hb => ?_
            rw [mem_nodes] at hb ⊢
            rw [hs'.addrs, ← hs.addrs] at hb
            exact ⟨hb.1, hgray' b hb.2⟩
        · have hreg : ({ s with reg := s.reg.setCandidateColor a .white } : Trial).reg =
              s.reg.setCandidateColor a .white := rfl
          have hcolor := candidateColor_of_reg hmem hreg
          refine ⟨_, _, scanStep_eq ha hv, ⟨hs.whiten ha (not_lt.1 hv) hreg rfl, fun b hb => ?_,
            fun hr => ?_⟩, sum_nodes_add_le hmem ha (by simp) hreg _⟩
          · rw [hcolor] at hb
            split at hb
            · cases hb
            · exact hgray b hb
          · rw [hcolor] at hr
            split at hr
            · cases hr
            · rename_i hne
              exact List.mem_append_right _ ((List.mem_cons.1 (hroot hr)).resolve_left hne)
      · refine ⟨s, [], if_pos ha, ⟨hs, hgray, fun hr => ?_⟩, le_rfl⟩
        refine (List.mem_cons.1 (hroot hr)).resolve_left ?_
        rintro rfl
        exact ha hr)
    (rounds h t.reg) t [root]
    ⟨hs, fun _ hb => hb, fun _ => List.mem_cons_self⟩ (sum_nodes_lt_rounds _)
  exact ⟨t', ht', hs', hgray, fun hr => List.not_mem_nil (hroot hr)⟩

variable (h roots) in
/-- **The first two phases come to an end**: the invariant of the scan holds over the subgraph,
and nothing is gray any more. -/
theorem classify_total (hr : r.Settled) {order : List ℕ} (horder : order.Perm r.addrs) :
    ∃ t M, classify h roots r order = some t ∧ (∀ a, a ∈ M ↔ Subgraph h r a) ∧
      Scanning h roots r M t [] ∧ ∀ a, t.reg.candidateColor a ≠ .gray := by
  obtain ⟨t1, hmark, hm, htwo⟩ := markAll_total h roots hr horder
  have hM : ∀ a, a ∈ nodes t1 (· = .gray) ↔ t1.reg.candidateColor a = .gray := fun a =>
    ⟨fun ha => (mem_nodes.1 ha).2, fun ha =>
      mem_nodes.2 ⟨Registry.mem_of_candidateColor (show _ ≠ _ by rw [ha]; nofun), ha⟩⟩
  have hsub : ∀ a, a ∈ nodes t1 (· = .gray) ↔ Subgraph h r a := by
    intro a
    rw [hM]
    refine ⟨hm.gray a, ?_⟩
    rintro ⟨p, hp, hpa⟩
    induction hpa with
    | refl =>
      rcases hm.color p with h' | h'
      · rw [hp] at h'
        rcases htwo p with h'' | h'' <;> rw [h'] at h'' <;> cases h''
      · exact h'
    | tail _ hbc ih => exact (hm.closed _ ih _ hbc.1 hbc.2).resolve_right List.not_mem_nil
  have hs : Scanning h roots r (nodes t1 (· = .gray)) t1 [] := by
    have hall : (nodes t1 (· = .gray)).filter (t1.reg.candidateColor · ≠ .black) =
        nodes t1 (· = .gray) :=
      Finset.filter_true_of_mem fun a ha => by rw [(hM a).1 ha]; nofun
    refine ⟨hm.addrs, fun a ha => (htwo a).resolve_right fun hg => ha ((hM a).2 hg), fun a => ?_,
      fun k hk => ?_, fun a ha => ?_, fun a ha hb => ?_, fun a ha hb => ?_⟩
    · rcases htwo a with h' | h' <;> rw [h'] <;> nofun
    · have hgray := (hM k).1 hk
      have hmem : k ∈ r.addrs := ((hsub k).1 hk).mem
      have hv := hm.virtual k
      obtain ⟨v, hv'⟩ := Option.isSome_iff_exists.1 (hm.counted k hgray)
      rw [Trial.virtual, hv', Option.getD_some] at hv
      rw [hall, hv', hv]
      simp [candidateStrongCount, hmem]
    · rcases htwo a with h' | h' <;> rw [ha] at h' <;> cases h'
    · rw [(hM a).1 ha] at hb
      cases hb
    · rw [(hM a).1 ha] at hb
      cases hb
  obtain ⟨t, hscan, hs', hnone⟩ := Worklist.foldlM_total
    (f := fun (t : Trial) a => if t.reg.candidateColor a = .gray then scan h t a else some t)
    (fun t rest => Scanning h roots r (nodes t1 (· = .gray)) t [] ∧
      ∀ a, t.reg.candidateColor a = .gray → a ∈ rest)
    (fun t a rest ⟨hs, hrest⟩ => by
      by_cases ha : t.reg.candidateColor a = .gray
      · obtain ⟨t', ht', hs', hgray, ha'⟩ := scan_total hs
        refine ⟨t', by rw [if_pos ha, ht'], hs', fun b hb =>
          (List.mem_cons.1 (hrest b (hgray b hb))).resolve_left ?_⟩
        rintro rfl
        exact ha' hb
      · refine ⟨t, if_neg ha, hs, fun b hb => (List.mem_cons.1 (hrest b hb)).resolve_left ?_⟩
        rintro rfl
        exact ha hb)
    ⟨hs, fun a ha =>
      horder.mem_iff.2 (hm.addrs ▸ Registry.mem_of_candidateColor (show _ ≠ _ by rw [ha]; nofun))⟩
  refine ⟨t, _, ?_, hsub, hs', fun a ha => List.not_mem_nil (hnone a ha)⟩
  simp [classify, hmark, hscan]

lemma Scanning.white_of_ref (hs : Scanning h roots r M t [])
    (hgray : ∀ a, t.reg.candidateColor a ≠ .gray) {w : ℕ}
    (hw : t.reg.candidateColor w = .white) :
    w ∉ rootRefs roots ∧ ∀ x, w ∈ h.refs x → t.reg.candidateColor x = .white := by
  have hwM : w ∈ M := by
    by_contra hnot
    rw [hs.color w hnot] at hw
    cases hw
  have hle := hs.white w hw
  have hadd := strongCount_eq_add h roots M w
  refine ⟨fun hroot => ?_, fun x hx => ?_⟩
  · have := List.count_pos_iff.2 hroot
    omega
  · by_cases hxM : x ∈ M
    · rcases hc : t.reg.candidateColor x with _ | _ | _ | _
      · rcases hs.closed x hxM hc w hx hwM with hb | hnil
        · rw [hw] at hb
          cases hb
        · cases hnil
      · exact absurd hc (hgray x)
      · rfl
      · exact absurd hc (hs.settled x)
    · -- a reference from outside what was marked would have been left in the count
      have hlen : x < h.length := by
        obtain ⟨o, ho⟩ := Heap.live_iff.1 (Heap.live_of_mem_refs hx)
        exact (List.getElem?_eq_some_iff.1 ho).1
      have hone : (h.refs x).count w ≤ ∑ x ∈ Finset.range h.length \ M, (h.refs x).count w :=
        Finset.single_le_sum (f := fun x => (h.refs x).count w) (fun _ _ => Nat.zero_le _)
          (Finset.mem_sdiff.2 ⟨Finset.mem_range.2 hlen, hxM⟩)
      have := List.count_pos_iff.2 hx
      omega

end Invariants

/-- **Trial deletion is safe.** Whatever the heap, whichever addresses are registered, and in
whatever order the candidates are visited: the first two phases come to an end, and no node they
leave white is reachable from a reference held outside the candidate-reachable subgraph. -/
theorem white_unreachable (h : Heap) (roots : List Data.Value) (r : Registry) (hr : r.Settled)
    (order : List ℕ) (horder : order.Perm r.addrs) :
    ∃ t, classify h roots r order = some t ∧
      ∀ w, t.reg.candidateColor w = .white → ∀ k, OutsideRef h roots r k →
        ¬ ReflTransGen h.Edge k w := by
  obtain ⟨t, M, ht, hM, hs, hgray⟩ := classify_total h roots hr horder
  refine ⟨t, ht, fun w hw k hk hkw => ?_⟩
  -- backwards along the path everything is white
  have hwhite : t.reg.candidateColor k = .white := by
    clear hk
    induction hkw using ReflTransGen.head_induction_on with
    | refl => exact hw
    | head hab _ ih => exact (hs.white_of_ref hgray ih).2 _ hab
  obtain ⟨hroot, hheld⟩ := hs.white_of_ref hgray hwhite
  rcases hk with hk | ⟨x, hx, hkx⟩
  · exact hroot hk
  · have hxw := hheld x hkx
    refine hx ((hM x).1 ?_)
    by_contra hnot
    rw [hs.color x hnot] at hxw
    cases hxw

/-- A pair whose car is the pair itself, registered. -/
theorem white_unreachable_selfLoop :
    Registry.Settled ⟨[0], fun _ => .purple⟩ ∧
      ∃ t, classify [some (.pair (.strong (.pair 0)) (.strong .null))] []
          ⟨[0], fun _ => .purple⟩ [0] = some t ∧
        ∀ w, t.reg.candidateColor w = .white → ∀ k,
          OutsideRef [some (.pair (.strong (.pair 0)) (.strong .null))] []
            ⟨[0], fun _ => .purple⟩ k →
          ¬ ReflTransGen (Heap.Edge [some (.pair (.strong (.pair 0)) (.strong .null))]) k w := by
  have hr : Registry.Settled ⟨[0], fun _ => .purple⟩ := by
    intro a
    unfold Registry.candidateColor
    split
    · exact .inr rfl
    · exact .inl rfl
  exact ⟨hr, white_unreachable _ _ _ hr [0] (List.Perm.refl _)⟩

end CrabScheme.Gc
