import CrabScheme.Actor.Watches

/-!
# Links and monitors are exact

The steps of calls and terminations keep the invariant when they are clean, and the invariant says
that links and monitors are exact.

## Main results

* `links_exact` — in every run of clean steps links and monitors are exact.
* `races_break_watches` — two runs with a race in which they are not.
-/

namespace CrabScheme.Actor

namespace System

variable {m : System} {a b p q r w : ℕ} {f : Phase} {c : Call} {e : Event}

/-! ## Runs -/

namespace Base

lemma note (h : m.Base) (he : ∀ p, e = .finished p → (m.phase p).settled = true) :
    (m.note e).Base := by
  obtain ⟨⟩ := h
  constructor <;> grind -linarith

lemma setCall (h : m.Base) (hc : c ≠ .idle → m.phase a = .alive) : (m.setCall a c).Base := by
  obtain ⟨⟩ := h
  constructor <;> grind -linarith

lemma setLinks (h : m.Base) (s : Finset ℕ) : (m.setLinks p s).Base :=
  ⟨h.callAlive, h.reason, h.finished⟩

lemma setMonitors (h : m.Base) (s : Finset (ℕ × ℕ)) : (m.setMonitors p s).Base :=
  ⟨h.callAlive, h.reason, h.finished⟩

lemma setPhase (h : m.Base) (hc : f ≠ .alive → m.calls p = .idle)
    (hreason : ∀ {reason}, f.reason? = some reason → .removed p reason ∈ m.log)
    (hfinished : .finished p ∈ m.log → f.settled = true) : (m.setPhase p f).Base := by
  obtain ⟨⟩ := h
  constructor <;> grind -linarith

lemma advance (h : m.Base) {reason : ExitReason} (hp : (m.phase p).reason? = some reason)
    (hf : f.reason? = some reason) (hnot : (m.phase p).settled = false) :
    (m.setPhase p f).Base := by
  have hdead : m.phase p ≠ .alive := fun halive => by simp [halive, Phase.reason?] at hp
  apply h.setPhase <;> grind -linarith [h.idle hdead, → Base.reason, → Base.finished]

end Base

namespace Inv

lemma due_note (h : m.Inv) {e' : Event} {past : List Event} (hs : e' :: past <:+ e :: m.log)
    (he : Due m.log e) : Due past e' := by
  rcases List.suffix_cons_iff.mp hs with heq | hs
  · obtain ⟨rfl, rfl⟩ : e' = e ∧ past = m.log := by simpa using heq
    exact he
  · exact h.due hs

lemma new : System.new.Inv where
  base := by constructor <;> simp [System.new, Phase.reason?]
  links := by constructor <;> simp [System.new, linkedIn, Phase.exited]
  monitors := by constructor <;> simp [System.new, watching, Phase.downed]
  due := by simp [System.new]

section

variable (h : m.Inv)

include h

lemma spawn (hp : m.phase p = .unborn) : (m.setPhase p .alive).Inv where
  base := h.base.setPhase (fun hne => absurd rfl hne) (nofun) fun hfin => by
    have := h.base.finished hfin
    rw [hp] at this
    cases this
  links := h.links.frame (.setPhase (by simp) (by rw [hp]; rfl) (by simp [hp, Phase.present]) rfl
    (by rw [hp]; rfl))
  monitors := h.monitors.frame (.setPhase (by simp) (by rw [hp]; rfl) (by simp [hp, Phase.present])
    (by rw [hp]; rfl) (by simp) (by simp [hp]))
  due := h.due

lemma link : (m.link a b).Inv := by
  unfold System.link
  split
  · next hc =>
    obtain ⟨ha, hidle, -, hb⟩ := hc
    exact
      { base := h.base.setCall fun _ => ha
        links := h.links.frame (.setCall (by simp [hb]) (by simp) (by simp [hidle]))
        monitors := h.monitors.frame (.setCall (by simp) (by simp))
        due := h.due }
  · exact h

lemma linkSelf (hclean : m.Clean (.linkSelf a)) : (m.linkSelf a).Inv := by
  unfold System.linkSelf
  unfold Clean at hclean
  split
  · next b hc =>
    simp only [hc] at hclean
    exact
      { base := (h.base.setLinks _).setCall fun _ => h.base.callAlive (by simp [hc])
        links := h.links.linkSelf hc hclean
        monitors := h.monitors.frame
          ((MonitorFrame.setLinks _).trans (.setCall (by simp) (by simp)))
        due := h.due }
  · exact h

lemma linkTarget (hclean : m.Clean (.linkTarget a)) : (m.linkTarget a).Inv := by
  unfold System.linkTarget
  unfold Clean at hclean
  split
  · next b hc =>
    simp only [hc] at hclean
    exact
      { base := ((h.base.setLinks _).setCall (by simp)).note (by simp)
        links := h.links.linkTarget h.base hc hclean
        monitors := h.monitors.frame (((MonitorFrame.setLinks _).trans
          (.setCall (by simp) (by simp))).trans (.note (fun _ _ _ _ => rfl) (by simp) (by simp)))
        due := fun hs => h.due_note hs trivial }
  · exact h

lemma unlink (hclean : m.Clean (.unlink a b)) : (m.unlink a b).Inv := by
  unfold System.unlink
  split
  · next hc =>
    obtain ⟨ha, hidle, -⟩ := hc
    exact
      { base := (h.base.setLinks _).setCall fun _ => ha
        links := h.links.unlink hidle hclean
        monitors := h.monitors.frame
          ((MonitorFrame.setLinks _).trans (.setCall (by simp) (by simp)))
        due := h.due }
  · exact h

lemma unlinkTarget (hclean : m.Clean (.unlinkTarget a)) : (m.unlinkTarget a).Inv := by
  unfold System.unlinkTarget
  unfold Clean at hclean
  split
  · next b hc =>
    simp only [hc] at hclean
    exact
      { base := ((h.base.setLinks _).setCall (by simp)).note (by simp)
        links := h.links.unlinkTarget h.base hc hclean
        monitors := h.monitors.frame (((MonitorFrame.setLinks _).trans
          (.setCall (by simp) (by simp))).trans (.note (fun _ _ _ _ => rfl) (by simp) (by simp)))
        due := fun hs => h.due_note hs trivial }
  · exact h

lemma monitor : (m.monitor a b).Inv := by
  unfold System.monitor
  split
  · next hc =>
    obtain ⟨ha, hidle, hb⟩ := hc
    exact
      { base := h.base.setCall fun _ => ha
        links := h.links.frame (.setCall (by simp) (by simp) (by simp [hidle]))
        monitors := h.monitors.frame (.setCall (by simp [hb]) (by simp))
        due := h.due }
  · exact h

lemma monitorRef (hclean : m.nextRef + 1 < 2 ^ 64) : (m.monitorRef a).Inv := by
  unfold System.monitorRef
  split
  · next b hc =>
    have hbase : (m.setCall a (.monitorRef b m.nextRef)).Base :=
      h.base.setCall fun _ => h.base.callAlive (by simp [hc])
    have hlinks : (m.setCall a (.monitorRef b m.nextRef)).LinksInv :=
      h.links.frame (.setCall (by simp) (by simp) (by simp [hc]))
    exact
      { base := ⟨hbase.callAlive, hbase.reason, hbase.finished⟩
        links := ⟨hlinks.born, hlinks.found, hlinks.linking, hlinks.unlinking, hlinks.mirror,
          hlinks.silent, hlinks.pending, hlinks.told⟩
        monitors := h.monitors.monitorRef hc hclean
        due := h.due }
  · exact h

lemma monitorInsert (hclean : m.Clean (.monitorInsert a)) : (m.monitorInsert a).Inv := by
  unfold System.monitorInsert
  unfold Clean at hclean
  split
  · next b r hc =>
    simp only [hc] at hclean
    exact
      { base := ((h.base.setMonitors _).setCall (by simp)).note (by simp)
        links := h.links.frame (((LinkFrame.setMonitors _).trans
          (.setCall (by simp) (by simp) (by simp [hc]))).trans (.note (fun _ _ _ => rfl) (by simp)))
        monitors := h.monitors.monitorInsert h.base hc hclean
        due := fun hs => h.due_note hs trivial }
  · exact h

lemma demonitor (hclean : m.Clean (.demonitor a b r)) : (m.demonitor a b r).Inv := by
  unfold System.demonitor
  split
  · exact
      { base := (h.base.setMonitors _).note (by simp)
        links := h.links.frame
          ((LinkFrame.setMonitors _).trans (.note (fun _ _ _ => rfl) (by simp)))
        monitors := h.monitors.demonitor hclean
        due := fun hs => h.due_note hs trivial }
  · exact h

lemma terminate {reason : ExitReason} : (m.terminate p reason).Inv := by
  unfold System.terminate
  split
  · next hc =>
    obtain ⟨hp, hidle⟩ := hc
    have hbase : ((m.note (.removed p reason)).setPhase p (.removed reason)).Base := by
      refine (h.base.note (by simp)).setPhase (fun _ => hidle) (fun {reason'} hr => ?_)
        fun hfin => ?_
      · obtain rfl : reason = reason' := by simpa [Phase.reason?] using hr
        simp
      · have := h.base.finished (by simpa using hfin)
        rw [hp] at this
        cases this
    exact
      { base := hbase
        links := h.links.frame ((LinkFrame.setPhase (by simp) (by rw [hp]; rfl)
          (by simp [Phase.present]) rfl (by rw [hp]; rfl)).trans
          (.note (fun _ _ _ => rfl) (by simp)))
        monitors := h.monitors.frame ((MonitorFrame.setPhase (by simp) (by rw [hp]; rfl)
          (by simp [Phase.present]) (by rw [hp]; rfl) (by simp) (by simp [hp])).trans
          (.note (fun _ _ _ _ => rfl) (by simp) (by simp)))
        due := fun hs => h.due_note hs trivial }
  · exact h

lemma snapMonitors : (m.snapMonitors p).Inv := by
  unfold System.snapMonitors
  split
  · next reason hp =>
    exact
      { base := h.base.advance (by rw [hp]; rfl) rfl (by rw [hp]; rfl)
        links := h.links.frame (.setPhase (by simp) (by rw [hp]; rfl) (by simp [Phase.present]) rfl
          (by rw [hp]; rfl))
        monitors := h.monitors.snapMonitors hp
        due := h.due }
  · exact h

lemma notifyDown : (m.notifyDown p r w).Inv := by
  unfold System.notifyDown
  split
  · next reason s hp =>
    have hbase : (m.setPhase p (.downs reason (s.erase (r, w)))).Base :=
      h.base.advance (by rw [hp]; rfl) rfl (by rw [hp]; rfl)
    have hframe : LinkFrame m (m.setPhase p (.downs reason (s.erase (r, w)))) :=
      .setPhase (by simp) (by rw [hp]; rfl) (by simp [Phase.present]) rfl (by rw [hp]; rfl)
    split
    · next hmem =>
      split
      · next hw =>
        obtain ⟨hwatch, hnot⟩ := h.monitors.pending hp (by rw [hw]; rfl) hmem
        have hreason : .removed p reason ∈ m.log := h.base.reason (by rw [hp]; rfl)
        exact
          { base := hbase.note (by simp)
            links := h.links.frame (hframe.trans (.note (fun _ _ _ => rfl) (by simp)))
            monitors := h.monitors.notifyDown hp
            due := fun hs => h.due_note hs ⟨hreason, hwatch, hnot⟩ }
      · next hw =>
        exact ⟨hbase, h.links.frame hframe, h.monitors.skipDown hp hw, h.due⟩
    · exact h
  · exact h

lemma snapLinks : (m.snapLinks p).Inv := by
  unfold System.snapLinks
  split
  · next reason s hp =>
    split
    · next hempty =>
      subst hempty
      exact
        { base := h.base.advance (by rw [hp]; rfl) rfl (by rw [hp]; rfl)
          links := h.links.snapLinks h.base hp
          monitors := h.monitors.snapLinks hp _
          due := h.due }
    · exact h
  · exact h

lemma notifyExit : (m.notifyExit p q).Inv := by
  unfold System.notifyExit
  split
  · next reason s hp =>
    have hbase : (m.setPhase p (.exits reason (s.erase q))).Base :=
      h.base.advance (by rw [hp]; rfl) rfl (by rw [hp]; rfl)
    have hframe : MonitorFrame m (m.setPhase p (.exits reason (s.erase q))) :=
      .setPhase (by simp) (by rw [hp]; rfl) (by simp [Phase.present]) (by rw [hp]; rfl) (by simp)
        (by simp [hp])
    split
    · next hmem =>
      split
      · next hq =>
        obtain ⟨hlinked, hnot⟩ := h.links.pending hp (by rw [hq]; rfl) hmem
        have hreason : .removed p reason ∈ m.log := h.base.reason (by rw [hp]; rfl)
        exact
          { base := (hbase.setLinks _).note (by simp)
            links := h.links.notifyExit hp hq
            monitors := h.monitors.frame ((hframe.trans (.setLinks _)).trans
              (.note (fun _ _ _ _ => rfl) (by simp) (by simp)))
            due := fun hs => h.due_note hs ⟨hreason, hlinked, hnot⟩ }
      · next hq =>
        exact ⟨hbase, h.links.skipExit hp hq, h.monitors.frame hframe, h.due⟩
    · exact h
  · exact h

lemma finish : (m.finish p).Inv := by
  unfold System.finish
  split
  · next reason s hp =>
    split
    · next hempty =>
      subst hempty
      exact
        { base := (h.base.advance (by rw [hp]; rfl) rfl (by rw [hp]; rfl)).note fun q hq => by
            obtain rfl : p = q := by simpa using hq
            simp [Phase.settled]
          links := h.links.finish hp
          monitors := h.monitors.frame ((MonitorFrame.setPhase (by simp) (by rw [hp]; rfl)
            (by simp [Phase.present]) (by rw [hp]; rfl) (by simp) (by simp [hp])).trans
            (.note (fun _ _ _ _ => rfl) (by simp) (by simp)))
          due := fun hs => h.due_note hs trivial }
    · exact h
  · exact h

/-- **Clean steps keep the invariant.** -/
lemma step (act : Act) (hclean : m.Clean act) : (System.step act m).Inv := by
  cases act with
  | spawn p =>
    dsimp only [System.step]
    split
    · next hp => exact h.spawn hp
    · exact h
  | link a b => exact h.link
  | linkSelf a => exact h.linkSelf hclean
  | linkTarget a => exact h.linkTarget hclean
  | unlink a b => exact h.unlink hclean
  | unlinkTarget a => exact h.unlinkTarget hclean
  | monitor a b => exact h.monitor
  | monitorRef a => exact h.monitorRef hclean
  | monitorInsert a => exact h.monitorInsert hclean
  | demonitor a b r => exact h.demonitor hclean
  | terminate p reason => exact h.terminate
  | snapMonitors p => exact h.snapMonitors
  | notifyDown p r w => exact h.notifyDown
  | snapLinks p => exact h.snapLinks
  | notifyExit p q => exact h.notifyExit
  | finish p => exact h.finish

lemma exact : m.Exact where
  due := h.due
  downs hfin hw hwatch := by
    obtain ⟨reason, hp⟩ := Phase.settled_iff.mp (h.base.finished hfin)
    exact ⟨reason, by grind -linarith [h.monitors.told (by rw [hp]; rfl) (by rw [hw]; rfl) hwatch]⟩
  exits hfin hq hlinked := by
    obtain ⟨reason, hp⟩ := Phase.settled_iff.mp (h.base.finished hfin)
    exact ⟨reason, by grind -linarith [h.links.told (by rw [hp]; rfl) (by rw [hq]; rfl) hlinked]⟩
  symmetric {a b} ha hb hca hcb := by
    grind -linarith [h.links.mirror, h.links.mirror, Half, linkedIn_comm]

end

end Inv

end System

/-- **Links and monitors are exact.** In every run of clean steps, in every state reached, every
message delivered was due, every watch in force on an actor that has terminated has delivered its
message to the watcher if that is alive, and links of live actors are symmetric. -/
theorem links_exact (as : List Act)
    (has : Actions.Allowed System.step System.Clean System.new as) :
    (Actions.run System.step as System.new).Exact := by
  have hstep : ∀ (m : System) act, m.Inv → m.Clean act → (System.step act m).Inv :=
    fun _ act h hclean => h.step act hclean
  exact (Actions.run_invariant hstep System.Inv.new has).exact

/-- Two actors are spawned. -/
def pair : List Act := [.spawn 0, .spawn 1]

/-- All of `on_actor_termination` for an actor with at most one monitor and one link. -/
def terminates (p r w : ℕ) : List Act :=
  [.terminate p .normal, .snapMonitors p, .notifyDown p r w, .snapLinks p, .notifyExit p w,
    .finish p]

/-- An actor that links to and monitors another gets one message of each kind. -/
theorem links_exact_pair :
    (Actions.run System.step (pair ++ [Act.link 0 1, .linkSelf 0, .linkTarget 0, .monitor 0 1,
      .monitorRef 0, .monitorInsert 0] ++ terminates 1 1 0) System.new).log.take 3 =
      [.finished 1, .delivered 0 (.exit 1 .normal), .delivered 0 (.down 1 1 .normal)] ∧
    (Actions.run System.step (pair ++ [Act.link 0 1, .linkSelf 0, .linkTarget 0, .monitor 0 1,
      .monitorRef 0, .monitorInsert 0] ++ terminates 1 1 0) System.new).Exact :=
  ⟨by decide, links_exact _ (by decide)⟩

/-- **Two races.** A `link` that overlaps with the `unlink` of the other side leaves links that are
not symmetric. A `monitor` that finds its target, and records itself when the target has taken its
snapshot, returns `Ok` and never delivers. -/
theorem races_break_watches :
    let crossed := Actions.run System.step (pair ++ [Act.link 0 1, .linkSelf 0, .unlink 1 0,
      .unlinkTarget 1, .linkTarget 0]) System.new
    let late := Actions.run System.step (pair ++ [Act.monitor 0 1, .monitorRef 0, .terminate 1 .normal,
      .snapMonitors 1, .monitorInsert 0, .snapLinks 1, .finish 1]) System.new
    (crossed.phase 0 = .alive ∧ crossed.phase 1 = .alive ∧ (∀ a < 2, crossed.calls a = .idle) ∧
      1 ∉ crossed.links 0 ∧ 0 ∈ crossed.links 1 ∧ ¬crossed.Exact) ∧
    (.monitored 1 0 1 ∈ late.log ∧ .finished 1 ∈ late.log ∧ late.phase 0 = .alive ∧
      (∀ e ∈ late.log, ∀ reason, e ≠ .delivered 0 (.down 1 1 reason)) ∧ ¬late.Exact) := by
  intro crossed late
  have h0 : crossed.phase 0 = .alive := by decide
  have h1 : crossed.phase 1 = .alive := by decide
  have hidle : ∀ a < 2, crossed.calls a = .idle := by decide
  have hno : 1 ∉ crossed.links 0 := by decide
  have hyes : 0 ∈ crossed.links 1 := by decide
  have hlog : late.log = [.finished 1, .monitored 1 0 1, .removed 1 .normal] := by decide
  have hw : late.phase 0 = .alive := by decide
  have hnone : ∀ e ∈ late.log, ∀ reason, e ≠ .delivered 0 (.down 1 1 reason) := by
    rw [hlog]
    simp
  refine ⟨⟨h0, h1, hidle, hno, hyes, fun h => ?_⟩, by simp [hlog], by simp [hlog], hw, hnone,
    fun h => ?_⟩
  · exact hno ((h.symmetric h0 h1 (hidle 0 (by decide)) (hidle 1 (by decide))).mpr hyes)
  · obtain ⟨reason, hmem⟩ := h.downs (p := 1) (r := 1) (by simp [hlog]) hw (by rw [hlog]; rfl)
    exact hnone _ hmem reason rfl

end CrabScheme.Actor
