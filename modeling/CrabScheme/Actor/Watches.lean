import CrabScheme.Actor.Links

/-!
# What links and monitors keep

The link sets and the monitor maps mirror the watches in force up to the snapshots that a
termination takes of them; from then on, what is still to be notified mirrors the watches in force
that have not delivered. One invariant is about links and one about monitors: most steps concern
only one of the two and frame the other.

## Main results

* `System.LinksInv.linkTarget`, `System.LinksInv.unlinkTarget`, `System.LinksInv.notifyExit` — the
  steps of links.
* `System.MonitorsInv.monitorInsert`, `System.MonitorsInv.demonitor`,
  `System.MonitorsInv.notifyDown` — the steps of monitors.
-/

namespace CrabScheme.Actor

namespace System

/-! ## The invariant -/

/-- A call of `p` has changed the links of `p` and not yet those of `q`. -/
def Half (m : System) (p q : ℕ) : Prop := m.calls p = .linkHalf q ∨ m.calls p = .unlinkHalf q

/-- **The invariant of calls and terminations.** -/
structure Base (m : System) : Prop where
  callAlive : ∀ {a}, m.calls a ≠ .idle → m.phase a = .alive
  reason : ∀ {p reason}, (m.phase p).reason? = some reason → .removed p reason ∈ m.log
  finished : ∀ {p}, .finished p ∈ m.log → (m.phase p).settled = true

/-- **The invariant of links.** As long as neither side has taken its snapshot, the links of an
actor are the links in force, except those its own call is about. -/
structure LinksInv (m : System) : Prop where
  born : ∀ {p q}, linkedIn p q m.log = true → m.phase p ≠ .unborn
  found : ∀ {a b}, m.calls a = .linkFound b ∨ m.calls a = .linkHalf b → m.phase b ≠ .unborn
  linking : ∀ {a b}, m.calls a = .linkHalf b → (m.phase b).linkable = true →
    b ∈ m.links a ∧ m.calls b ≠ .unlinkHalf a
  unlinking : ∀ {a b}, m.calls a = .unlinkHalf b → (m.phase b).linkable = true → b ∉ m.links a
  mirror : ∀ {p q}, (m.phase p).linkable = true → (m.phase q).linkable = true → ¬m.Half p q →
    (q ∈ m.links p ↔ linkedIn p q m.log = true)
  silent : ∀ {p q reason}, (m.phase p).linkable = true → .delivered q (.exit p reason) ∉ m.log
  pending : ∀ {p reason s q}, m.phase p = .exits reason s → (m.phase q).present = true → q ∈ s →
    linkedIn p q m.log = true ∧ ∀ reason', .delivered q (.exit p reason') ∉ m.log
  told : ∀ {p reason q}, (m.phase p).exited = some reason → (m.phase q).present = true →
    linkedIn p q m.log = true →
    (∃ s, m.phase p = .exits reason s ∧ q ∈ s) ∨ .delivered q (.exit p reason) ∈ m.log

/-- **The invariant of monitors.** Up to the snapshot, the map of an actor has the monitors in
force. -/
structure MonitorsInv (m : System) : Prop where
  born : ∀ {p r w}, watching p r w m.log = true → m.phase p ≠ .unborn ∧ m.phase w ≠ .unborn
  found : ∀ {a b r}, m.calls a = .monitorFound b ∨ m.calls a = .monitorRef b r →
    m.phase b ≠ .unborn
  fresh : ∀ {a b r}, m.calls a = .monitorRef b r → r < m.nextRef ∧
    ∀ w p, .monitored r w p ∉ m.log
  distinct : ∀ {a b a' b' r}, m.calls a = .monitorRef b r → m.calls a' = .monitorRef b' r → a = a'
  counted : ∀ {r w p}, .monitored r w p ∈ m.log → r < m.nextRef
  mirror : ∀ {p r w}, (m.phase p).watchable = true →
    ((r, w) ∈ m.monitoredBy p ↔ watching p r w m.log = true)
  silent : ∀ {p w r reason}, (m.phase p).watchable = true → .delivered w (.down r p reason) ∉ m.log
  pending : ∀ {p reason s r w}, m.phase p = .downs reason s → (m.phase w).present = true →
    (r, w) ∈ s → watching p r w m.log = true ∧ ∀ reason', .delivered w (.down r p reason') ∉ m.log
  told : ∀ {p reason r w}, (m.phase p).downed = some reason → (m.phase w).present = true →
    watching p r w m.log = true →
    (∃ s, m.phase p = .downs reason s ∧ (r, w) ∈ s) ∨ .delivered w (.down r p reason) ∈ m.log

/-- **The invariant of clean steps.** -/
structure Inv (m : System) : Prop where
  base : m.Base
  links : m.LinksInv
  monitors : m.MonitorsInv
  due : ∀ {e past}, e :: past <:+ m.log → Due past e

variable {m m' m'' : System} {a b p q r w : ℕ} {f : Phase} {c : Call} {e : Event}

/-! ## What does not concern links -/

/-- A step that does not concern links. -/
structure LinkFrame (m m' : System) : Prop where
  links : ∀ p, m'.links p = m.links p
  linkFound : ∀ {a b}, m'.calls a = .linkFound b → m.calls a = .linkFound b ∨ m'.phase b ≠ .unborn
  linkHalf : ∀ a b, m'.calls a = .linkHalf b ↔ m.calls a = .linkHalf b
  unlinkHalf : ∀ a b, m'.calls a = .unlinkHalf b ↔ m.calls a = .unlinkHalf b
  unborn : ∀ {p}, m'.phase p = .unborn → m.phase p = .unborn
  linkable : ∀ p, (m'.phase p).linkable = (m.phase p).linkable
  present : ∀ {p}, (m'.phase p).present = true → (m.phase p).present = true
  exits : ∀ p reason s, m'.phase p = .exits reason s ↔ m.phase p = .exits reason s
  exited : ∀ p, (m'.phase p).exited = (m.phase p).exited
  linkedIn : ∀ p q, linkedIn p q m'.log = linkedIn p q m.log
  delivered : ∀ q p reason, .delivered q (.exit p reason) ∈ m'.log ↔
    .delivered q (.exit p reason) ∈ m.log

namespace LinkFrame

lemma trans (h : LinkFrame m m') (h' : LinkFrame m' m'') : LinkFrame m m'' := by
  obtain ⟨⟩ := h
  obtain ⟨⟩ := h'
  constructor <;> grind -linarith

lemma setPhase (hf : f ≠ .unborn) (hlink : f.linkable = (m.phase p).linkable)
    (hpresent : f.present = true → (m.phase p).present = true) (hexit : f.exited = none)
    (hexit' : (m.phase p).exited = none) : LinkFrame m (m.setPhase p f) := by
  constructor <;> grind -linarith

lemma setCall (hfound : ∀ b, c = .linkFound b → m.phase b ≠ .unborn)
    (hc : ∀ b, c ≠ .linkHalf b ∧ c ≠ .unlinkHalf b)
    (hc' : ∀ b, m.calls a ≠ .linkHalf b ∧ m.calls a ≠ .unlinkHalf b) :
    LinkFrame m (m.setCall a c) := by
  constructor <;> grind -linarith

lemma note (hlinked : ∀ p q past, Actor.linkedIn p q (e :: past) = Actor.linkedIn p q past)
    (hexit : ∀ q p reason, e ≠ .delivered q (.exit p reason)) : LinkFrame m (m.note e) := by
  constructor <;> grind -linarith

lemma setMonitors (s : Finset (ℕ × ℕ)) : LinkFrame m (m.setMonitors p s) := by
  constructor <;> grind -linarith

end LinkFrame

lemma LinksInv.frame (h : m.LinksInv) (hm : LinkFrame m m') : m'.LinksInv := by
  obtain ⟨⟩ := h
  obtain ⟨⟩ := hm
  constructor <;> grind -linarith [Half]

/-! ## What does not concern monitors -/

/-- A step that does not concern monitors. -/
structure MonitorFrame (m m' : System) : Prop where
  monitoredBy : ∀ p, m'.monitoredBy p = m.monitoredBy p
  monitorFound : ∀ {a b}, m'.calls a = .monitorFound b →
    m.calls a = .monitorFound b ∨ m'.phase b ≠ .unborn
  monitorRef : ∀ {a b r}, m'.calls a = .monitorRef b r → m.calls a = .monitorRef b r
  nextRef : m'.nextRef = m.nextRef
  unborn : ∀ {p}, m'.phase p = .unborn → m.phase p = .unborn
  watchable : ∀ p, (m'.phase p).watchable = (m.phase p).watchable
  present : ∀ {p}, (m'.phase p).present = true → (m.phase p).present = true
  downs : ∀ p reason s, m'.phase p = .downs reason s ↔ m.phase p = .downs reason s
  downed : ∀ p, (m'.phase p).downed = (m.phase p).downed
  monitored : ∀ {r w p}, .monitored r w p ∈ m'.log → .monitored r w p ∈ m.log
  watching : ∀ p r w, watching p r w m'.log = watching p r w m.log
  delivered : ∀ w r p reason, .delivered w (.down r p reason) ∈ m'.log ↔
    .delivered w (.down r p reason) ∈ m.log

namespace MonitorFrame

lemma trans (h : MonitorFrame m m') (h' : MonitorFrame m' m'') : MonitorFrame m m'' := by
  obtain ⟨⟩ := h
  obtain ⟨⟩ := h'
  constructor <;> grind -linarith

lemma setPhase (hf : f ≠ .unborn) (hwatch : f.watchable = (m.phase p).watchable)
    (hpresent : f.present = true → (m.phase p).present = true)
    (hdowned : f.downed = (m.phase p).downed)
    (hdowns : ∀ reason s, f ≠ .downs reason s) (hdowns' : ∀ reason s, m.phase p ≠ .downs reason s) :
    MonitorFrame m (m.setPhase p f) := by
  constructor <;> grind -linarith

lemma setCall (hfound : ∀ b, c = .monitorFound b → m.phase b ≠ .unborn)
    (hc : ∀ b r, c ≠ .monitorRef b r) : MonitorFrame m (m.setCall a c) := by
  constructor <;> grind -linarith

lemma note (hwatch : ∀ p r w past, Actor.watching p r w (e :: past) = Actor.watching p r w past)
    (hmonitored : ∀ r w p, e ≠ .monitored r w p)
    (hdown : ∀ w r p reason, e ≠ .delivered w (.down r p reason)) : MonitorFrame m (m.note e) := by
  constructor <;> grind -linarith

lemma setLinks (s : Finset ℕ) : MonitorFrame m (m.setLinks p s) := by
  constructor <;> grind -linarith

end MonitorFrame

lemma MonitorsInv.frame (h : m.MonitorsInv) (hm : MonitorFrame m m') : m'.MonitorsInv := by
  obtain ⟨⟩ := h
  obtain ⟨⟩ := hm
  constructor <;> grind -linarith

/-! ## Steps of links -/

lemma Base.idle (h : m.Base) (hp : m.phase p ≠ .alive) : m.calls p = .idle := by
  by_contra hne
  exact hp (h.callAlive hne)

variable {reason : ExitReason}

namespace LinksInv

section

variable (h : m.LinksInv)

include h

lemma born' (hlinked : linkedIn p q m.log = true) : m.phase q ≠ .unborn :=
  h.born (linkedIn_comm p q m.log ▸ hlinked)

lemma linkSelf (hc : m.calls a = .linkFound b) (hclean : m.calls b ≠ .unlinkHalf a) :
    ((m.setLinks a (insert b (m.links a))).setCall a (.linkHalf b)).LinksInv := by
  obtain ⟨⟩ := h
  constructor <;> grind -linarith [Half]

lemma linkTarget (hbase : m.Base) (hc : m.calls a = .linkHalf b)
    (hclean : (m.phase b).linkable = true) :
    (((m.setLinks b (insert a (m.links b))).setCall a .idle).note (.linked a b)).LinksInv := by
  have ha : m.phase a = .alive := hbase.callAlive (by simp [hc])
  have hlinked : ∀ p q, linkedIn p q (.linked a b :: m.log) = true ↔
      (a = p ∧ b = q ∨ a = q ∧ b = p) ∨ linkedIn p q m.log = true := by
    simp [linkedIn]
  constructor
  case born => grind -linarith [h.born, h.found]
  case found => grind -linarith [h.found]
  case linking => grind -linarith [h.linking]
  case unlinking => grind -linarith [→ linking, → unlinking]
  case mirror => grind -linarith [Half, h.linking, h.mirror]
  case silent => grind -linarith [h.silent]
  case pending => grind -linarith [→ pending]
  case told => grind -linarith [h.told]

lemma unlink (hc : m.calls a = .idle) (hclean : m.calls b ≠ .linkHalf a) :
    ((m.setLinks a ((m.links a).erase b)).setCall a (.unlinkHalf b)).LinksInv := by
  obtain ⟨⟩ := h
  constructor <;> grind -linarith [Half]

lemma unlinkTarget (hbase : m.Base) (hc : m.calls a = .unlinkHalf b)
    (hclean : (m.phase b).present = true ∨ (m.phase b).settled = true) :
    (((m.setLinks b (if m.phase b = .alive then (m.links b).erase a else m.links b)).setCall a
      .idle).note (.unlinked a b)).LinksInv := by
  have ha : m.phase a = .alive := hbase.callAlive (by simp [hc])
  have hlinked : ∀ p q, linkedIn p q (.unlinked a b :: m.log) = true ↔
      ¬(a = p ∧ b = q ∨ a = q ∧ b = p) ∧ linkedIn p q m.log = true := by
    grind -linarith [linkedIn]
  have hb : m.phase b = .alive ∨ m.phase b = .unborn ∨ (m.phase b).settled = true := by
    cases hphase : m.phase b <;> simp_all [Phase.present]
  constructor
  case born => grind -linarith [h.born]
  case found => grind -linarith [h.found]
  case linking => grind -linarith [h.linking]
  case unlinking => grind -linarith [h.unlinking]
  case mirror =>
    -- a target that is not spawned has no link in force
    have hidle : m.phase b ≠ .alive → m.calls b = .idle := hbase.idle
    grind -linarith [Half, → unlinking, h.mirror, h.born]
  case silent => grind -linarith [h.silent]
  case pending => grind -linarith [→ pending]
  case told => grind -linarith [h.told]

/-- An actor that has its snapshot, or takes it, goes on; `hpending` and `htold` say that what is
still to be notified is what is in force and not delivered. -/
lemma leave (hlink : f.linkable = false)
    (hpending : ∀ {reason s q}, f = .exits reason s → (m.phase q).present = true → q ∈ s → linkedIn p q m.log = true ∧ ∀ reason', .delivered q (.exit p reason') ∉ m.log)
    (htold : ∀ {reason q}, f.exited = some reason → (m.phase q).present = true → linkedIn p q m.log = true → (∃ s, f = .exits reason s ∧ q ∈ s) ∨ .delivered q (.exit p reason) ∈ m.log)
    : (m.setPhase p f).LinksInv := by
  constructor
  case born => grind -linarith [h.born]
  case found => grind -linarith [h.found]
  case linking => grind -linarith [h.linking]
  case unlinking => grind -linarith [h.unlinking]
  case mirror => grind -linarith [Half, h.mirror]
  case silent => grind -linarith [h.silent]
  case pending => grind -linarith [→ pending]
  case told => grind -linarith [h.told]

lemma snapLinks (hbase : m.Base) {s : Finset (ℕ × ℕ)} (hp : m.phase p = .downs reason s)
    : (m.setPhase p (.exits reason (m.links p))).LinksInv := by
  have hidle : m.calls p = .idle := hbase.idle (by simp [hp])
  apply h.leave rfl <;> grind -linarith [h.mirror, h.silent, Half]

lemma skipExit {s : Finset ℕ} (hp : m.phase p = .exits reason s) (hq : m.phase q ≠ .alive)
    : (m.setPhase p (.exits reason (s.erase q))).LinksInv := by
  apply h.leave rfl <;> grind -linarith [h.pending, h.told, h.born']

lemma finish (hp : m.phase p = .exits reason ∅) :
    ((m.setPhase p (.gone reason)).note (.finished p)).LinksInv := by
  have hgone : (m.setPhase p (.gone reason)).LinksInv := by
    apply h.leave rfl <;> grind -linarith [h.told]
  exact hgone.frame (.note (fun _ _ _ => rfl) (by simp))

lemma notifyExit {s : Finset ℕ} (hp : m.phase p = .exits reason s) (hq : m.phase q = .alive) :
    (((m.setPhase p (.exits reason (s.erase q))).setLinks q ((m.links q).erase p)).note
      (.delivered q (.exit p reason))).LinksInv := by
  have hlinked : ∀ p' q', linkedIn p' q' (.delivered q (.exit p reason) :: m.log) =
      linkedIn p' q' m.log := fun _ _ => rfl
  constructor
  case born => grind -linarith [h.born]
  case found => grind -linarith [h.found]
  case linking => grind -linarith [h.linking]
  case unlinking => grind -linarith [h.unlinking]
  case mirror => grind -linarith [Half, h.mirror]
  case silent => grind -linarith [h.silent]
  case pending => grind -linarith [→ pending]
  case told =>
    have hexit : (m.phase p).exited = some reason := by simp [hp, Phase.exited]
    grind -linarith [→ told]

end

end LinksInv

/-! ## Steps of monitors -/

namespace MonitorsInv

section

variable (h : m.MonitorsInv)

include h

lemma monitorRef (hc : m.calls a = .monitorFound b) (hclean : m.nextRef + 1 < 2 ^ 64) :
    MonitorsInv { m with
      calls := Function.update m.calls a (.monitorRef b m.nextRef)
      nextRef := (m.nextRef + 1) % 2 ^ 64 } := by
  obtain ⟨⟩ := h
  constructor <;> grind -linarith [Function.update_apply]

lemma monitorInsert (hbase : m.Base) (hc : m.calls a = .monitorRef b r)
    (hclean : (m.phase b).watchable = true) :
    (((m.setMonitors b (insert (r, a) ((m.monitoredBy b).filter fun k => k.1 ≠ r))).setCall a
      .idle).note (.monitored r a b)).MonitorsInv := by
  have ha : m.phase a = .alive := hbase.callAlive (by simp [hc])
  have hwatching : ∀ p' r' w', watching p' r' w' (.monitored r a b :: m.log) = true ↔
      (r = r' ∧ a = w' ∧ b = p') ∨ watching p' r' w' m.log = true := by
    simp [watching]
  constructor
  case born => grind -linarith [h.born, h.found]
  case found => grind -linarith [h.found]
  case fresh => grind -linarith [→ fresh, → distinct]
  case distinct => grind -linarith [→ distinct]
  case counted => grind -linarith [→ counted, h.fresh]
  case mirror =>
    -- the reference is new, so no monitor of it is removed
    have hfresh := h.fresh hc
    grind -linarith [h.mirror, → monitored_of_watching]
  case silent => grind -linarith [h.silent]
  case pending => grind -linarith [→ pending]
  case told => grind -linarith [h.told]

lemma demonitor (hclean : (m.phase b).present = true ∨ (m.phase b).linkable = false) :
    ((m.setMonitors b (if m.phase b = .alive then (m.monitoredBy b).filter fun k => k.1 ≠ r
      else m.monitoredBy b)).note (.demonitored b r)).MonitorsInv := by
  have hwatching : ∀ p' r' w', watching p' r' w' (.demonitored b r :: m.log) = true ↔
      ¬(b = p' ∧ r = r') ∧ watching p' r' w' m.log = true := by
    grind -linarith [watching]
  have hb : m.phase b = .alive ∨ m.phase b = .unborn ∨ (m.phase b).watchable = false := by
    cases hphase : m.phase b <;> simp_all [Phase.present, Phase.linkable, Phase.watchable]
  constructor
  case born => grind -linarith [h.born]
  case found => grind -linarith [h.found]
  case fresh => grind -linarith [→ fresh]
  case distinct => grind -linarith [→ distinct]
  case counted => grind -linarith [→ counted]
  case mirror => grind -linarith [h.mirror, → born]
  case silent => grind -linarith [h.silent]
  case pending => grind -linarith [→ pending]
  case told => grind -linarith [h.told]

lemma leave (hwatch : f.watchable = false)
    (hpending : ∀ {reason s r w}, f = .downs reason s → (m.phase w).present = true → (r, w) ∈ s → watching p r w m.log = true ∧ ∀ reason', .delivered w (.down r p reason') ∉ m.log)
    (htold : ∀ {reason r w}, f.downed = some reason → (m.phase w).present = true → watching p r w m.log = true → (∃ s, f = .downs reason s ∧ (r, w) ∈ s) ∨ .delivered w (.down r p reason) ∈ m.log)
    : (m.setPhase p f).MonitorsInv := by
  constructor
  case born => grind -linarith [→ born]
  case found => grind -linarith [h.found]
  case fresh => grind -linarith [→ fresh]
  case distinct => grind -linarith [→ distinct]
  case counted => grind -linarith [→ counted]
  case mirror => grind -linarith [h.mirror]
  case silent => grind -linarith [h.silent]
  case pending => grind -linarith [→ pending]
  case told => grind -linarith [h.told]

lemma snapMonitors (hp : m.phase p = .removed reason) :
    (m.setPhase p (.downs reason (m.monitoredBy p))).MonitorsInv := by
  apply h.leave rfl <;> grind -linarith [h.mirror, h.silent]

lemma skipDown {s : Finset (ℕ × ℕ)} (hp : m.phase p = .downs reason s) (hw : m.phase w ≠ .alive)
    : (m.setPhase p (.downs reason (s.erase (r, w)))).MonitorsInv := by
  apply h.leave rfl <;> grind -linarith [h.pending, h.told, h.born]

lemma snapLinks (hp : m.phase p = .downs reason ∅) (s : Finset ℕ) :
    (m.setPhase p (.exits reason s)).MonitorsInv := by
  apply h.leave rfl <;> grind -linarith [h.told]

lemma notifyDown {s : Finset (ℕ × ℕ)} (hp : m.phase p = .downs reason s) :
    ((m.setPhase p (.downs reason (s.erase (r, w)))).note
      (.delivered w (.down r p reason))).MonitorsInv := by
  have hwatching : ∀ p' r' w', watching p' r' w' (.delivered w (.down r p reason) :: m.log) =
      watching p' r' w' m.log := fun _ _ _ => rfl
  constructor
  case born => grind -linarith [h.born]
  case found => grind -linarith [h.found]
  case fresh => grind -linarith [→ fresh]
  case distinct => grind -linarith [→ distinct]
  case counted => grind -linarith [→ counted]
  case mirror => grind -linarith [h.mirror]
  case silent => grind -linarith [h.silent]
  case pending => grind -linarith [→ pending]
  case told =>
    have hdown : (m.phase p).downed = some reason := by simp [hp, Phase.downed]
    grind -linarith [→ told]

end

end MonitorsInv

end System

end CrabScheme.Actor
