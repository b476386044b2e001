import Gubernatrix.Lib.Trace
import Gubernatrix.Timers.Wait
import Mathlib.Data.List.Nodup
import Mathlib.Data.List.Pairwise

/-!
# Requests for timers

`timer_request` takes the first timer that can do what is asked for, and programs it; the product
of the time and the rate wraps around at `2 ^ 64`. A timer that was taken is marked as in use, as
is one that `timer_wait` waits for, so that no other client gets it. A client that waits may be
interrupted by other calls.
-/

namespace Timers

open Program Trace

variable {F H : Type}

/-! ### What should hold of a request -/

/-- The calls that program a timer for a request: its mode, the interval if it is to be written,
the handler, and that it is enabled. -/
def programming (t : Def F) (features : Features) (interval : U64)
    (handler : Option (Handler H)) : List (Call F H) :=
  t.handlers.setMode.toList.map (.setMode · features)
    ++ (if features &&& featuresWrite ≠ 0 then t.handlers.write.toList.map (.write · interval)
      else [])
    ++ t.handlers.setHandler.toList.map (.setHandler · handler)
    ++ t.handlers.setEnable.toList.map (.setEnable · true)

/-- The request is granted the first suitable timer, which is marked and programmed, with the exact
interval if one is to be written. -/
structure Grants (s : State F H) (features : Features) (ns : U64) (handler : Option (Handler H))
    (pre : List (Def F)) (t : Def F) (post : List (Def F)) (interval : U64) : Prop where
  defs : s.defs = pre ++ t :: post
  first : ∀ u ∈ pre, ¬ Suitable features u
  suitable : Suitable features t
  written : features &&& featuresWrite ≠ 0 →
    interval.toNat = ns.toNat * t.handlers.rate.toNat / 10 ^ 9
  result : timerRequest features ns handler s = .ok 0
    { s with
      defs := pre ++ { t with inUse := true } :: post
      timerWaitD := some pre.length
      calls := s.calls ++ (programming t features interval handler).map (pre.length, ·) }

/-- The request is granted the first suitable timer; if there is none, it is denied and nothing
changes. -/
def Answers (s : State F H) (features : Features) (ns : U64) (handler : Option (Handler H)) :
    Prop :=
  (∃ pre t post interval, Grants s features ns handler pre t post interval)
    ∨ (∀ t ∈ s.defs, ¬ Suitable features t) ∧ timerRequest features ns handler s = .ok (-1) s

/-- The time and the rate of the timer that is granted have a product of 64 bits, unless no interval
is written. -/
def Fits (s : State F H) (features : Features) (ns : U64) : Prop :=
  features &&& featuresWrite ≠ 0 → ∀ t ∈ s.defs.find? (Suitable features ·),
    ns.toNat * t.handlers.rate.toNat < 2 ^ 64

/-! ### A request -/

section Request

variable {s : State F H} {features : Features} {ns : U64} {handler : Option (Handler H)}

/-- A product that wraps around is too small by more than the divisor. -/
theorem wrapped_div_eq_iff (x : ℕ) :
  x % 2 ^ 64 / 10 ^ 9 = x / 10 ^ 9 ↔ x < 2 ^ 64
  := by
  constructor
  · intro h
    by_contra hge
    omega
  · intro h
    rw [Nat.mod_eq_of_lt h]

theorem modify_append_cons {α : Type} (f : α → α) (pre : List α) (a : α) (post : List α) :
  (pre ++ a :: post).modify pre.length f = pre ++ f a :: post
  := by
  induction pre with
  | nil => rfl
  | cons b pre ih =>
      rw [List.cons_append, List.length_cons, List.modify_succ_cons, ih]
      rfl

/-- What a request does if a timer is suitable. -/
theorem timerRequest_of_suitable {pre post : List (Def F)} {t : Def F}
    (hdefs : s.defs = pre ++ t :: post) (hfirst : ∀ u ∈ pre, ¬ Suitable features u)
    (ht : Suitable features t) :
  timerRequest features ns handler s = .ok 0
    { s with
      defs := pre ++ { t with inUse := true } :: post
      timerWaitD := some pre.length
      calls := s.calls ++ (programming t features (ns * t.handlers.rate / 1000000000)
        handler).map (pre.length, ·) }
  := by
  have hloop : requestLoop features 0 s.defs = some pre.length := by
    rw [requestLoop_eq, findIdx?_eq_some_iff_split.mpr ⟨pre, t, post, hdefs, rfl, hfirst, ht⟩]
    rfl
  have hget : s.defs[pre.length]? = some t := by
    rw [hdefs, List.getElem?_append_right (le_refl _), Nat.sub_self, List.getElem?_cons_zero]
  have hmodify : (s.defs.modify pre.length fun t => { t with inUse := true })
      = pre ++ { t with inUse := true } :: post := by
    rw [hdefs, modify_append_cons]
  obtain ⟨fm, hfm⟩ := Option.isSome_iff_exists.mp ht.setMode
  obtain ⟨fh, hfh⟩ := Option.isSome_iff_exists.mp ht.setHandler
  obtain ⟨fe, hfe⟩ := Option.isSome_iff_exists.mp ht.setEnable
  by_cases hwrite : features &&& featuresWrite ≠ 0
  · obtain ⟨fw, hfw⟩ := Option.isSome_iff_exists.mp (ht.write hwrite)
    simp only [timerRequest, bind_apply, get_apply, hloop, modify_apply, hget, setInUse, hmodify,
      through, hfm, hfh, hfe, hfw, pure_apply, programming, if_pos hwrite]
    simp
  · simp only [timerRequest, bind_apply, get_apply, hloop, modify_apply, hget, setInUse, hmodify,
      through, hfm, hfh, hfe, pure_apply, programming, if_neg hwrite]
    simp

/-- What a request does if no timer is suitable. -/
theorem timerRequest_of_none (h : ∀ t ∈ s.defs, ¬ Suitable features t) :
  timerRequest features ns handler s = .ok (-1) s
  := by
  have hloop : requestLoop features 0 s.defs = none := by
    rw [requestLoop_eq, List.findIdx?_eq_none_iff.mpr]
    · rfl
    · intro t ht
      simpa using h t ht
  simp only [timerRequest, bind_apply, get_apply, hloop, pure_apply]

/-- The calls that program a timer tell the interval, if it is written. -/
theorem programming_injective {t : Def F} (ht : Suitable features t)
    (hwrite : features &&& featuresWrite ≠ 0) {i i' : U64}
    (h : programming t features i handler = programming t features i' handler) :
  i = i'
  := by
  obtain ⟨fw, hfw⟩ := Option.isSome_iff_exists.mp (ht.write hwrite)
  rw [programming, programming, if_pos hwrite, if_pos hwrite, hfw] at h
  simpa using h

/-- A grant is of the first suitable timer. -/
theorem Grants.find {pre post : List (Def F)} {t : Def F} {interval : U64}
    (h : Grants s features ns handler pre t post interval) :
  s.defs.find? (Suitable features ·) = some t
  := by
  rw [List.find?_eq_some_iff_append]
  refine ⟨by simpa using h.suitable, pre, post, h.defs, ?_⟩
  intro u hu
  simpa using h.first u hu

/-- An exact grant is one of a product that fits. -/
theorem Grants.fits {pre post : List (Def F)} {t : Def F} {interval : U64}
    (h : Grants s features ns handler pre t post interval) :
  Fits s features ns
  := by
  intro hwrite t' ht'
  obtain rfl : t = t' := Option.some.inj (h.find.symm.trans ht')
  have hresult := (timerRequest_of_suitable h.defs h.first h.suitable).symm.trans h.result
  injection hresult with hzero hstate
  have hcalls := List.append_cancel_left (congrArg State.calls hstate)
  have hprogramming := congrArg (List.map Prod.snd) hcalls
  rw [List.map_map, List.map_map, Function.comp_def] at hprogramming
  simp only [List.map_id'] at hprogramming
  have hinterval := h.written hwrite
  rw [← programming_injective h.suitable hwrite hprogramming, BitVec.toNat_udiv,
    BitVec.toNat_mul] at hinterval
  exact (wrapped_div_eq_iff _).mp hinterval

/-- Every request is answered as it should be exactly when the product fits. -/
theorem answers_iff : 
  Answers s features ns handler ↔ Fits s features ns
  := by
  constructor
  · rintro (⟨pre, t, post, interval, hgrants⟩ | ⟨hnone, -⟩)
    · exact hgrants.fits
    · intro hwrite t ht
      have hmem := List.mem_of_find?_eq_some ht
      have hsuitable := List.find?_some ht
      exact absurd (by simpa using hsuitable) (hnone t hmem)
  · intro h
    cases hfind : s.defs.find? (Suitable features ·) with
    | none =>
        right
        have hnone : ∀ t ∈ s.defs, ¬ Suitable features t := by
          intro t ht
          simpa using List.find?_eq_none.mp hfind t ht
        exact ⟨hnone, timerRequest_of_none hnone⟩
    | some t =>
        left
        obtain ⟨ht, pre, post, hdefs, hfirst⟩ := List.find?_eq_some_iff_append.mp hfind
        have hsuitable : Suitable features t := by simpa using ht
        have hbefore : ∀ u ∈ pre, ¬ Suitable features u := by
          intro u hu
          simpa using hfirst u hu
        use pre, t, post, ns * t.handlers.rate / 1000000000
        refine ⟨hdefs, hbefore, hsuitable, ?_, timerRequest_of_suitable hdefs hbefore hsuitable⟩
        intro hwrite
        rw [BitVec.toNat_udiv, BitVec.toNat_mul]
        exact (wrapped_div_eq_iff _).mpr (h hwrite t hfind)

end Request

/-! ### Clients -/

/-- A timer that a client holds: for good, or while it waits. -/
structure Grant where
  client : ℕ
  idx : ℕ
  waiting : Bool
deriving DecidableEq

/-- The timers, and which of them are held; a panic or a fault stops everything. -/
structure World (F H : Type) where
  timers : State F H
  held : List Grant
  stopped : Bool

/-- Before any call. -/
def World.start (s : State F H) : World F H where
  timers := s
  held := []
  stopped := false

/-- What may happen: a client calls `timer_request`; it calls `timer_wait`, and waits; the timer of
a wait ticks; a client goes on after its latest wait. -/
inductive Op (H : Type) where
  | request (client : ℕ) (features : Features) (ns : U64) (handler : Option (Handler H))
  | waitStart (client : ℕ) (ns : U64)
  | tick
  | waitFinish (client : ℕ)

/-- A client calls `timer_request`; `timer_wait_d` is the timer that it is granted. -/
def World.request (w : World F H) (client : ℕ) (features : Features) (ns : U64)
    (handler : Option (Handler H)) : World F H :=
  match timerRequest features ns handler w.timers with
  | .ok r s =>
      if r = 0 then
        { w with
          timers := s
          held := s.timerWaitD.toList.map (⟨client, ·, false⟩) ++ w.held }
      else { w with timers := s }
  | .error _ s => { w with timers := s, stopped := true }

/-- A client calls `timer_wait`, and waits. -/
def World.waitStart (w : World F H) (client : ℕ) (ns : U64) : World F H :=
  match timerWaitStart ns w.timers with
  | .ok idx s => { w with timers := s, held := ⟨client, idx, true⟩ :: w.held }
  | .error _ s => { w with timers := s, stopped := true }

/-- A client goes on after its latest wait, if it is over. -/
def World.waitFinish (w : World F H) (client : ℕ) : World F H :=
  if w.timers.timerWaitPending = 0 then
    match w.held.find? fun g => g.client = client ∧ g.waiting with
    | some g =>
        match timerWaitFinish g.idx w.timers with
        | .ok _ s => { w with timers := s, held := w.held.erase g }
        | .error _ s => { w with timers := s, stopped := true }
    | none => w
  else w

/-- The state after a step. -/
def step (w : World F H) (op : Op H) : World F H :=
  if w.stopped then w
  else
    match op with
    | .request client features ns handler => w.request client features ns handler
    | .waitStart client ns => w.waitStart client ns
    | .tick => { w with timers := timerWaitHandler w.timers }
    | .waitFinish client => w.waitFinish client

/-- No timer is held twice. -/
def Exclusive (w : World F H) : Prop := w.held.Pairwise fun g g' => g.idx ≠ g'.idx

/-- No timer is held twice, and those held are marked as in use. -/
structure Marked (defs : List (Def F)) (held : List Grant) : Prop where
  exclusive : held.Pairwise fun g g' => g.idx ≠ g'.idx
  inUse : ∀ g ∈ held, ∃ t, defs[g.idx]? = some t ∧ t.inUse = true

section Clients

variable {defs : List (Def F)} {held : List Grant}

/-- A timer that was not in use can be taken. -/
theorem Marked.take (h : Marked defs held) {idx : ℕ} {t : Def F} (ht : defs[idx]? = some t)
    (hfree : t.inUse = false) (client : ℕ) (waiting : Bool) :
  Marked (defs.modify idx fun t => { t with inUse := true }) (⟨client, idx, waiting⟩ :: held)
  := by
  have hne : ∀ g ∈ held, idx ≠ g.idx := by
    intro g hg heq
    obtain ⟨t', ht', hused⟩ := h.inUse g hg
    rw [← heq, ht, Option.some.injEq] at ht'
    rw [← ht', hfree] at hused
    contradiction
  constructor
  · exact List.pairwise_cons.mpr ⟨hne, h.exclusive⟩
  · intro g hg
    rcases List.mem_cons.mp hg with rfl | hg
    · rw [List.getElem?_modify, ht]
      simp
    · rw [List.getElem?_modify_ne _ _ (hne g hg)]
      apply h.inUse g hg

/-- A timer that is held can be given back. -/
theorem Marked.release (h : Marked defs held) {g : Grant} (hg : g ∈ held) :
  Marked (defs.modify g.idx fun t => { t with inUse := false }) (held.erase g)
  := by
  constructor
  · exact h.exclusive.sublist List.erase_sublist
  · intro g' hg'
    have hnodup : held.Nodup := h.exclusive.imp fun hne heq => hne (congrArg Grant.idx heq)
    obtain ⟨hne, hmem⟩ := hnodup.mem_erase_iff.mp hg'
    have hsymm : Std.Symm fun g g' : Grant => g.idx ≠ g'.idx := ⟨fun _ _ => Ne.symm⟩
    have hidx : g.idx ≠ g'.idx := h.exclusive.forall hg hmem hne.symm
    rw [List.getElem?_modify_ne _ _ hidx]
    apply h.inUse g' hmem

end Clients

section Calls

variable {s s' : State F H}

/-- What `timer_request` does to the table. -/
theorem timerRequest_cases (features : Features) (ns : U64) (handler : Option (Handler H))
    (s : State F H) :
  timerRequest features ns handler s = .ok (-1) s
    ∨ ∃ idx t s', timerRequest features ns handler s = .ok 0 s' ∧ s.defs[idx]? = some t
      ∧ t.inUse = false ∧ s'.timerWaitD = some idx
      ∧ s'.defs = s.defs.modify idx fun t => { t with inUse := true }
  := by
  cases hfind : s.defs.find? (Suitable features ·) with
  | none =>
      left
      apply timerRequest_of_none
      intro t ht
      simpa using List.find?_eq_none.mp hfind t ht
  | some t =>
      right
      obtain ⟨ht, pre, post, hdefs, hfirst⟩ := List.find?_eq_some_iff_append.mp hfind
      have hsuitable : Suitable features t := by simpa using ht
      have hbefore : ∀ u ∈ pre, ¬ Suitable features u := by
        intro u hu
        simpa using hfirst u hu
      refine ⟨pre.length, t, _, timerRequest_of_suitable hdefs hbefore hsuitable, ?_,
        hsuitable.free, rfl, ?_⟩
      · rw [hdefs, List.getElem?_append_right (le_refl _), Nat.sub_self, List.getElem?_cons_zero]
      · rw [hdefs, modify_append_cons]

/-- What `timer_wait` does to the table, if it gets to the loop that waits. -/
theorem timerWaitStart_defs {ns : U64} {idx : ℕ} (h : timerWaitStart ns s = .ok idx s') :
  ∃ t, s.defs[idx]? = some t ∧ t.inUse = false
    ∧ s'.defs = s.defs.modify idx fun t => { t with inUse := true }
  := by
  cases hloop : waitLoop 0 s.defs with
  | none =>
      simp only [timerWaitStart, bind_apply, get_apply, hloop, throw_apply] at h
      contradiction
  | some i =>
      obtain ⟨t, ht, hwaitable⟩ := exists_of_waitLoop hloop
      cases hwait : waitTarget ns t.handlers.rate with
      | none =>
          obtain ⟨s'', hfault⟩ := timerWaitStart_fault hloop ht hwait
          rw [hfault] at h
          contradiction
      | some target =>
          obtain ⟨calls, hok⟩ := timerWaitStart_ok hloop ht hwait
          rw [hok] at h
          injection h with hidx hstate
          subst hidx hstate
          exact ⟨t, ht, hwaitable.free, rfl⟩

/-- What `timer_wait` does to the table after the loop that waits. -/
theorem timerWaitFinish_defs {idx : ℕ} {u : Unit} (h : timerWaitFinish idx s = .ok u s') :
  s'.defs = s.defs.modify idx fun t => { t with inUse := false }
  := by
  rw [timerWaitFinish, bind_apply, get_apply] at h
  cases ht : s.defs[idx]? with
  | none =>
      simp only [ht, throw_apply] at h
      contradiction
  | some t =>
      cases hf : t.handlers.setEnable with
      | none =>
          simp only [ht, bind_apply, through, hf, throw_apply] at h
          contradiction
      | some f =>
          simp only [ht, bind_apply, through, hf, modify_apply, setInUse] at h
          injection h with hu hstate
          rw [← hstate]

end Calls

section Runs

variable {w : World F H}

/-- No timer is held twice, and while nothing has gone wrong, those held are marked. -/
structure Inv (w : World F H) : Prop where
  exclusive : Exclusive w
  marked : w.stopped = false → Marked w.timers.defs w.held

/-- What is kept by a step that does not go wrong. -/
theorem Inv.of_marked (h : Marked w.timers.defs w.held) :
  Inv w
  := ⟨h.exclusive, fun _ => h⟩

theorem Marked.request (h : Marked w.timers.defs w.held) (client : ℕ) (features : Features)
    (ns : U64) (handler : Option (Handler H)) :
  Inv (w.request client features ns handler)
  := by
  rcases timerRequest_cases features ns handler w.timers with hdenied
    | ⟨idx, t, s', hgranted, ht, hfree, hwaitD, hdefs⟩
  · rw [World.request, hdenied]
    exact .of_marked h
  · rw [World.request, hgranted]
    apply Inv.of_marked
    simp only [if_pos, hwaitD, hdefs]
    exact h.take ht hfree client false

theorem Marked.waitStart (h : Marked w.timers.defs w.held) (client : ℕ) (ns : U64) :
  Inv (w.waitStart client ns)
  := by
  rw [World.waitStart]
  cases hstart : timerWaitStart ns w.timers with
  | ok idx s' =>
      obtain ⟨t, ht, hfree, hdefs⟩ := timerWaitStart_defs hstart
      apply Inv.of_marked
      rw [hdefs]
      exact h.take ht hfree client true
  | error e s' => exact ⟨h.exclusive, nofun⟩

theorem Marked.waitFinish (h : Marked w.timers.defs w.held) (client : ℕ) :
  Inv (w.waitFinish client)
  := by
  rw [World.waitFinish]
  split
  next =>
    split
    next g hg =>
      cases hfinish : timerWaitFinish g.idx w.timers with
      | ok u s' =>
          apply Inv.of_marked
          rw [timerWaitFinish_defs hfinish]
          exact h.release (List.mem_of_find?_eq_some hg)
      | error e s' => exact ⟨h.exclusive, nofun⟩
    next => exact .of_marked h
  next => exact .of_marked h

theorem defs_timerWaitHandler (s : State F H) :
  (timerWaitHandler s).defs = s.defs
  := by
  rw [timerWaitHandler]
  split
  · rfl
  · rfl

/-- No step grants a timer that is held. -/
theorem Inv.step (h : Inv w) (op : Op H) :
  Inv (step w op)
  := by
  rw [Timers.step.eq_def]
  split
  next => exact h
  next hrunning =>
    have hmarked := h.marked (Bool.eq_false_iff.mpr hrunning)
    cases op with
    | request client features ns handler => apply hmarked.request
    | waitStart client ns => apply hmarked.waitStart
    | tick =>
        apply Inv.of_marked
        rw [defs_timerWaitHandler]
        exact hmarked
    | waitFinish client => apply hmarked.waitFinish

/-- In no run of calls a timer is granted while it is held. -/
theorem always_exclusive (s : State F H) (ops : List (Op H)) :
  Always Timers.step Exclusive (World.start s) ops
  := by
  apply Always.of_invariant Inv.exclusive (fun op h => h.step op)
  apply Inv.of_marked
  exact ⟨List.Pairwise.nil, nofun⟩

/-- A request is granted the first suitable timer with the exact interval, or denied if there is
none, exactly when the product of the time and the rate fits; and no timer is granted while it is
held. -/
theorem request_iff_and_exclusive (F H : Type) :
  (∀ (s : State F H) features ns handler, Answers s features ns handler ↔ Fits s features ns)
    ∧ ∀ (s : State F H) ops, Always Timers.step Exclusive (World.start s) ops
  := ⟨fun _ _ _ _ => answers_iff, always_exclusive⟩

end Runs

/-- A comparator of an HPET with a clock of 100 MHz. -/
def hpetSub : Def Unit where
  inUse := false
  features := featuresPersistent ||| featuresRead ||| featuresWrite ||| featuresOneshot
  handlers :=
    { name := "hpet_sub0"
      read := some ()
      write := some ()
      setMode := some ()
      setEnable := some ()
      setHandler := some ()
      rate := 100000000
      state := 0 }

/-- That timer alone. -/
def onlyHpetSub : State Unit Unit := .initial [hpetSub]

/-- A request for 200 seconds is granted, with another interval. -/
theorem not_answers_200s :
  ¬ Answers onlyHpetSub (featuresOneshot ||| featuresWrite) 200000000000 (some (.client ()))
  := by
  rw [answers_iff]
  intro h
  have hfits := h (by decide) hpetSub (by rfl)
  revert hfits
  decide

end Timers
