import Concord.Engine
import Concord.Proofs.Cache.Rebuild
import Concord.Proofs.Schedule.Deeds

/-!
# No change stays unpublished

The diagnostics of an engine are published by a scheduler of its own: a forwarder sees that a cache
has changed and pushes, and a cycle publishes what the diagnostics are when the item is processed.
Changes, wake-ups of the forwarder and moves of the scheduler come in any order, also in the middle
of a batch; such a history leads from one `Press` to another.

Two caches wake one forwarder, pushes pile up and all but the last are skipped, so no single push
can be followed to its publication. What is kept instead is a debt: as long as a change was not seen
or an item is pending, in the batch or in the worker's hands, something is *owed* (`Press.Owes`),
and when nothing is owed, either nothing has changed or the last that was published is what holds
now (`Press.Run.keeps`). A change that is made adds to the debt, seeing it turns it into a push, and
only a publication pays it off.
-/

namespace Concord

open Schedule

/-- What diagnostics are made from, and how far their publication has come. -/
structure Press where
  catalogs : Contents Catalog
  sources : Contents (List CallSite)
  /-- The changes that the forwarder has seen. -/
  seen : EngineSubscription
  desk : Desk Unit
  published : List Findings

namespace Press

/-- What is wrong now. -/
def findings (p : Press) : Findings := Engine.findingsOf p.catalogs.entries p.sources.entries

/-- All changes up to now. -/
def current (p : Press) : EngineSubscription := ⟨⟨p.catalogs.generation⟩, ⟨p.sources.generation⟩⟩

/-- Pass a change on that is seen now. -/
def pass (p : Press) (seen : EngineSubscription) : Press :=
  { p with seen := seen, desk := p.desk.onScheduler fun s => s.push () }

/-- One step, with the move of the scheduler that comes with it: a cache meets a request, the
forwarder sees a change of the catalogs or of the code, or the cycle that runs goes on. -/
inductive Step : Press → Option (Move Unit) → Press → Prop where
  | catalogs (p : Press) (o : Origin Catalog) (r : RebuildRequest) :
    Step p none { p with catalogs := p.catalogs.rebuild o r }
  | sources (p : Press) (o : Origin (List CallSite)) (r : RebuildRequest) :
    Step p none { p with sources := p.sources.rebuild o r }
  | seeCatalogs {p : Press} {seen : Subscription}
    (h : p.seen.catalogs.take? p.catalogs.generation = some seen) :
    Step p (some (.push ())) (p.pass { p.seen with catalogs := seen })
  | seeSources {p : Press} {seen : Subscription}
    (h : p.seen.sources.take? p.sources.generation = some seen) :
    Step p (some (.push ())) (p.pass { p.seen with sources := seen })
  | silent {p : Press} {m : Move Unit} {desk : Desk Unit} (hm : m.isSilent)
    (h : Schedule.Step p.desk m desk) : Step p (some m) { p with desk := desk }
  | publish {p : Press} {desk : Desk Unit} (h : Schedule.Step p.desk (.finish ()) desk) :
    Step p (some (.finish ()))
      { p with desk := desk, published := p.published ++ [p.findings] }

/-- A history, with the moves of the scheduler in it. -/
inductive Run : Press → List (Move Unit) → Press → Prop where
  | nil (p : Press) : Run p [] p
  | cons {p p' p'' : Press} {m : Option (Move Unit)} {ms : List (Move Unit)} :
    Step p m p' → Run p' ms p'' → Run p (m.toList ++ ms) p''

theorem Run.append {p p' p'' : Press} {ms ms' : List (Move Unit)} (h : Run p ms p')
    (h' : Run p' ms' p'') : Run p (ms ++ ms') p'' := by
  induction h with
  | nil p => exact h'
  | cons hstep _ ih =>
    rw [List.append_assoc]
    exact .cons hstep (ih h')

/-! ### The scheduler of a press -/

theorem Step.desk {p p' : Press} {m : Option (Move Unit)} (h : Step p m p') :
    Schedule.Run p.desk m.toList p'.desk := by
  cases h with
  | catalogs o r => exact .nil _
  | sources o r => exact .nil _
  | seeCatalogs h => exact .singleton (.push _ _)
  | seeSources h => exact .singleton (.push _ _)
  | silent hm h => exact .singleton h
  | publish h => exact .singleton h

/-- The moves of a history are a history of the scheduler. -/
theorem Run.desk {p p' : Press} {ms : List (Move Unit)} (h : Run p ms p') :
    Schedule.Run p.desk ms p'.desk := by
  induction h with
  | nil p => exact .nil _
  | cons hstep _ ih => exact hstep.desk.append ih

theorem Step.live {p p' : Press} {m : Option (Move Unit)} (h : Step p m p')
    (hp : p.desk.scheduler.disposed = false) : p'.desk.scheduler.disposed = false := by
  cases h with
  | catalogs o r => exact hp
  | sources o r => exact hp
  | seeCatalogs h => exact (Scheduler.disposed_push _ _).trans hp
  | seeSources h => exact (Scheduler.disposed_push _ _).trans hp
  | silent hm h => exact h.live_of_ne_dispose (by rintro rfl; simp [Move.isSilent] at hm) hp
  | publish h => exact h.live_of_ne_dispose (by simp) hp

/-- Each item that is finished has published once. -/
theorem Run.published {p p' : Press} {ms : List (Move Unit)} (h : Run p ms p') :
    ∃ given, p'.published = p.published ++ given ∧ given.length = (finished ms).length := by
  induction h with
  | nil p => exact ⟨[], (List.append_nil _).symm, rfl⟩
  | @cons p p' p'' m ms hstep _ ih =>
    obtain ⟨given, hgiven, hlength⟩ := ih
    have hsame : p'.published = p.published → finished (m.toList ++ ms) = finished ms →
        ∃ given, p''.published = p.published ++ given ∧
          given.length = (finished (m.toList ++ ms)).length := by
      intro hpublished hfinished
      exact ⟨given, by rw [hgiven, hpublished], by rw [hlength, hfinished]⟩
    cases hstep with
    | catalogs o r => exact hsame rfl rfl
    | sources o r => exact hsame rfl rfl
    | seeCatalogs h => exact hsame rfl rfl
    | seeSources h => exact hsame rfl rfl
    | silent hm h => exact hsame rfl (Worker.Runs.finished_silent hm)
    | publish h =>
      refine ⟨p.findings :: given, ?_, ?_⟩
      · rw [hgiven, List.append_assoc, List.singleton_append]
      · exact congrArg (· + 1) hlength

/-! ### What is owed -/

/-- A change that was not seen, or an item that is not finished. -/
def Owes (p : Press) : Prop :=
  p.seen ≠ p.current ∨ p.desk.scheduler.pending ≠ [] ∨ p.desk.rest ≠ [] ∨ p.desk.hands ≠ none

/-- What is so at any time after the publication has begun at `p₀`. -/
structure Keeps (p₀ p : Press) : Prop where
  live : p.desk.scheduler.disposed = false
  strategies : p.desk.scheduler.strategies = [.lastOnly]
  hands : p.desk.scheduler.batch = none → p.desk.hands = none
  catalogs : p.seen.catalogs.seen ≤ p.catalogs.generation
  sources : p.seen.sources.seen ≤ p.sources.generation
  /-- When nothing is owed, nothing has changed or what holds now was published last. -/
  paid : ∃ given, p.published = p₀.published ++ given ∧
    (p.Owes ∨ p.catalogs = p₀.catalogs ∧ p.sources = p₀.sources ∨
      given.getLast? = some p.findings)

/-- The beginning: nothing is pending and all changes were seen. -/
theorem keeps_self {p : Press} (hdesk : p.desk = ⟨p.desk.scheduler, none⟩)
    (hlive : p.desk.scheduler.disposed = false)
    (hstrategies : p.desk.scheduler.strategies = [.lastOnly]) (hseen : p.seen = p.current) :
    p.Keeps p := by
  refine ⟨hlive, hstrategies, fun _ => by rw [hdesk], ?_, ?_,
    [], (List.append_nil _).symm, Or.inr (Or.inl ⟨rfl, rfl⟩)⟩
  · rw [hseen]
    exact Nat.le_refl _
  · rw [hseen]
    exact Nat.le_refl _

theorem eq_of_take? {s seen : Subscription} {generation : Nat}
    (h : s.take? generation = some seen) : seen = ⟨generation⟩ := by
  rw [Subscription.take?] at h
  split at h
  · exact (Option.some_inj.1 h).symm
  · simp at h

/-- The last of several pending items is left of them. -/
theorem survivors_ne_nil {batch : List Unit} (h : batch ≠ []) :
    Strategy.survivors [.lastOnly] batch ≠ [] := by
  rw [Strategy.survivors_lastOnly, List.getLast?_eq_some_getLast h]
  exact List.cons_ne_nil _ _

variable {p₀ p p' : Press}

/-- A cycle that goes on without finishing an item pays nothing off. -/
theorem owes_of_silent {m : Move Unit} {desk : Desk Unit} (hm : m.isSilent)
    (h : Schedule.Step p.desk m desk) (hkeeps : Keeps p₀ p) (howes : p.Owes) :
    Owes { p with desk := desk } := by
  obtain ⟨catalogs, sources, seen, ⟨s, hands⟩, published⟩ := p
  have hlive := hkeeps.live
  cases h with
  | push x => simp [Move.isSilent] at hm
  | finish s x => simp [Move.isSilent] at hm
  | dispose => simp [Move.isSilent] at hm
  | hand _ hbatch => exact Or.inr (Or.inr (Or.inr (Option.some_ne_none _)))
  | begin hbatch =>
    by_cases hpending : s.pending = []
    · -- nothing is pending, so there is no batch either
      have hbegin : s.begin = s := Scheduler.begin_of_idle (by simp [hpending])
      rw [Desk.onScheduler, hbegin]
      exact howes
    · refine Or.inr (Or.inr (Or.inl ?_))
      change s.taken ≠ []
      rw [Scheduler.taken_eq hbatch hlive, if_neg hpending, hkeeps.strategies]
      exact survivors_ne_nil hpending
  | close hbatch hdone =>
    rcases hdone with hdisposed | rfl
    · exact absurd hdisposed (Bool.eq_false_iff.1 hlive)
    · -- nothing was left of the batch, so what was owed was owed elsewhere
      rcases howes with hseen | hpending | hrest | hhands
      · exact Or.inl hseen
      · exact Or.inr (Or.inl hpending)
      · exact absurd (by rw [Desk.rest, hbatch, Option.getD_some]) hrest
      · exact absurd rfl hhands

/-- **Each step keeps the accounts.** -/
theorem Keeps.step {m : Option (Move Unit)} (hkeeps : Keeps p₀ p) (h : Step p m p') :
    Keeps p₀ p' := by
  have hlive' := h.live hkeeps.live
  have hstrategies' := h.desk.strategies.trans hkeeps.strategies
  have hhands' := h.desk.hands_of_batch hkeeps.hands
  obtain ⟨hlive, hstrategies, hhands, hcatalogs, hsources, given, hgiven, hpaid⟩ := hkeeps
  cases h with
  | catalogs o r =>
    rcases Contents.rebuild_cases o r p.catalogs with hsame | hcount
    · rw [hsame]
      exact ⟨hlive, hstrategies, hhands, hcatalogs, hsources, given, hgiven, hpaid⟩
    · -- the change was not seen yet
      refine ⟨hlive, hstrategies, hhands, by dsimp only; omega, hsources, given, hgiven,
        Or.inl (Or.inl fun heq => ?_)⟩
      have hseen := congrArg (fun s => s.catalogs.seen) heq
      simp only [current, hcount] at hseen
      omega
  | sources o r =>
    rcases Contents.rebuild_cases o r p.sources with hsame | hcount
    · rw [hsame]
      exact ⟨hlive, hstrategies, hhands, hcatalogs, hsources, given, hgiven, hpaid⟩
    · refine ⟨hlive, hstrategies, hhands, hcatalogs, by dsimp only; omega, given, hgiven,
        Or.inl (Or.inl fun heq => ?_)⟩
      have hseen := congrArg (fun s => s.sources.seen) heq
      simp only [current, hcount] at hseen
      omega
  | seeCatalogs h =>
    obtain rfl := eq_of_take? h
    refine ⟨hlive', hstrategies', hhands', Nat.le_refl _, hsources, given, hgiven,
      Or.inl (Or.inr (Or.inl ?_))⟩
    simp [pass, Desk.onScheduler, Scheduler.pending_push_of_live hlive]
  | seeSources h =>
    obtain rfl := eq_of_take? h
    refine ⟨hlive', hstrategies', hhands', hcatalogs, Nat.le_refl _, given, hgiven,
      Or.inl (Or.inr (Or.inl ?_))⟩
    simp [pass, Desk.onScheduler, Scheduler.pending_push_of_live hlive]
  | silent hm h =>
    refine ⟨hlive', hstrategies', hhands', hcatalogs, hsources, given, hgiven, ?_⟩
    refine hpaid.imp_left fun howes => owes_of_silent hm h
      ⟨hlive, hstrategies, hhands, hcatalogs, hsources, given, hgiven, hpaid⟩ howes
  | publish h =>
    refine ⟨hlive', hstrategies', hhands', hcatalogs, hsources, given ++ [p.findings], ?_,
      Or.inr (Or.inr ?_)⟩
    · rw [hgiven, List.append_assoc]
    · rw [List.getLast?_append_cons, List.getLast?_singleton]
      rfl

/-- **The accounts are kept in every history.** -/
theorem Run.keeps {ms : List (Move Unit)} (h : Run p ms p') (hkeeps : Keeps p₀ p) :
    Keeps p₀ p' := by
  induction h with
  | nil p => exact hkeeps
  | cons hstep _ ih => exact ih (hkeeps.step hstep)

/-- When all changes were seen and the scheduler is idle, nothing is owed. -/
theorem Keeps.getLast? (hkeeps : Keeps p₀ p) (hseen : p.seen = p.current)
    (hidle : p.desk.scheduler.isIdle)
    (hchanged : p.catalogs ≠ p₀.catalogs ∨ p.sources ≠ p₀.sources) :
    ∃ given, p.published = p₀.published ++ given ∧ given.getLast? = some p.findings := by
  obtain ⟨hbatch, hpending⟩ : p.desk.scheduler.batch = none ∧ p.desk.scheduler.pending = [] := by
    simpa [Scheduler.isIdle] using hidle
  obtain ⟨given, hgiven, howes | hsame | hlast⟩ := hkeeps.paid
  · rcases howes with h | h | h | h
    · exact absurd hseen h
    · exact absurd hpending h
    · exact absurd (by rw [Desk.rest, hbatch, Option.getD_none]) h
    · exact absurd (hkeeps.hands hbatch) h
  · exact absurd hsame (by tauto)
  · exact ⟨given, hgiven, hlast⟩

/-- A cycle takes one item at most. -/
theorem length_taken_le {s : Scheduler Unit} (hbatch : s.batch = none) (hlive : s.disposed = false)
    (hstrategies : s.strategies = [.lastOnly]) : s.taken.length ≤ 1 := by
  rw [Scheduler.taken_eq hbatch hlive, hstrategies, Strategy.survivors_lastOnly]
  split
  · exact Nat.zero_le 1
  · cases s.pending.getLast? <;> simp

/-- **A cycle publishes once at most**, however many changes were passed on before it. -/
theorem Keeps.given_of_cycle {ms : List (Move Unit)} (hkeeps : Keeps p₀ p)
    (h : Run p (.begin :: ms) p') (hms : .begin ∉ ms) :
    ∃ given, p'.published = p.published ++ given ∧ given.length ≤ 1 := by
  obtain ⟨given, hgiven, hlength⟩ := h.published
  have hlive' := (h.keeps hkeeps).live
  have hhanded := h.desk.handed_of_cycle hms hlive'
  have hhands := h.desk.hands_append_handed
  have hbatch : p.desk.scheduler.batch = none := by
    cases h.desk with
    | cons hstep hrun => exact (hstep.of_begin (hrun.live hlive')).1
  have htaken := length_taken_le hbatch hkeeps.live hkeeps.strategies
  refine ⟨given, hgiven, ?_⟩
  rw [hkeeps.hands hbatch] at hhands
  have hcount := congrArg List.length hhands
  have htotal := congrArg List.length hhanded
  simp only [handed_cons, finished_cons, Move.handed?, Move.finished?, Option.toList_none,
    List.nil_append, List.length_append] at hcount htotal
  rw [hlength, finished_cons]
  simp only [Move.finished?, Option.toList_none, List.nil_append]
  omega

end Press

end Concord
