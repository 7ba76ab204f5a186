import Pintos.Logic.Run

/-!
# The clock

`get_victim` of `vm/frame.c` goes round `list_LRU` with the pointer `LRU_clock`.  A page whose
accessed bit is set is passed over, and the bit is cleared; the first page whose bit is clear is the
victim.

* `Clock.order` — the order in which `get_next_LRU_clock` comes to the pages.  Examining a page
  moves it from the front of that order to the back (`Clock.getNextLRUClock_eq`).
* `Clock.get_victim_exact` — the search ends, at which page, and what it leaves behind.
* `Clock.second_chance` — a page that has been passed over is not examined again before the others,
  as long as `LRU_clock` is not at a page that is freed.  If it is, `del_page_from_list_LRU` moves
  it on to the next page, which the next search then leaves out (`Clock.victim_skips_successor`).

What a page is does not matter here, and neither does what its accessed bit is kept under (its
page directory and its address, `key`).
-/

set_option autoImplicit false

namespace Pintos

open Function List Option

/-- What `LRU_clock` points to: nothing, the tail of `list_LRU` or a page on it. -/
inductive Hand (α : Type) where
  | null
  | tail
  | page (p : α)
  deriving DecidableEq, Repr

/-- `list_LRU`, `LRU_clock` and the accessed bits. -/
structure Clock (α κ : Type) where
  listLRU : List α
  hand : Hand α
  accessed : κ → Bool

/-- What the code does with a page that the order of the pages depends on. -/
inductive ClockEvent (α : Type) where
  /-- `get_victim` looks at its accessed bit, and passes it over if it is set; `listLRU` is the list
  at that moment. -/
  | examined (p : α) (passed : Bool) (listLRU : List α)
  /-- It is taken off the list. -/
  | freed (p : α)
  deriving DecidableEq, Repr

namespace Clock

variable {α κ : Type} [DecidableEq α] {c c' : Clock α κ} {p q : α}

/-! ## `frame.c` -/

/-- `list_LRU_init`. -/
def listLRUInit (accessed : κ → Bool) : Clock α κ := ⟨[], .null, accessed⟩

/-- `add_page_to_list_LRU`. -/
def addPageToListLRU (c : Clock α κ) (page : α) : Clock α κ :=
  { c with listLRU := c.listLRU ++ [page] }

/-- `list_next`, from a page. -/
def listNext (page : α) : List α → Hand α
  | [] => .tail
  | p :: rest =>
    if p = page then
      match rest with
      | [] => .tail
      | q :: _ => .page q
    else listNext page rest

/-- `del_page_from_list_LRU`. -/
def delPageFromListLRU (c : Clock α κ) (page : α) : Clock α κ :=
  if c.hand = .page page then
    { c with listLRU := c.listLRU.erase page, hand := listNext page c.listLRU }
  else { c with listLRU := c.listLRU.erase page }

/-- `get_next_LRU_clock`, if `LRU_clock` is null or at the end of the list. -/
def firstLRUClock (c : Clock α κ) : Option α × Clock α κ :=
  match c.listLRU with
  | [] => (none, c)
  | p :: _ => (some p, { c with hand := .page p })

/-- `get_next_LRU_clock`.  If it gets to the end of the list, it calls itself, and starts again. -/
def getNextLRUClock (c : Clock α κ) : Option α × Clock α κ :=
  match c.hand with
  | .null | .tail => c.firstLRUClock
  | .page p =>
    match listNext p c.listLRU with
    | .page q => (some q, { c with hand := .page q })
    | hand => { c with hand }.firstLRUClock

/-- `pagedir_set_accessed`, to false. -/
def clearAccessed [DecidableEq κ] (c : Clock α κ) (k : κ) : Clock α κ :=
  { c with accessed := Function.update c.accessed k false }

/-- The loop of `get_victim`, with what it examines. -/
def getVictimLoop [DecidableEq κ] (key : α → κ) :
    Nat → Clock α κ → Option (List (ClockEvent α) × α × Clock α κ)
  | 0, _ => none
  | fuel + 1, c => do
    let (e, c) := c.getNextLRUClock
    let page ← e
    if c.accessed (key page) then
      let (seen, result) ← getVictimLoop key fuel (c.clearAccessed (key page))
      return (.examined page true c.listLRU :: seen, result)
    else return ([.examined page false c.listLRU], page, c)

/-- `get_victim`. -/
def getVictim [DecidableEq κ] (key : α → κ) (c : Clock α κ) :
    Option (List (ClockEvent α) × α × Clock α κ) :=
  getVictimLoop key (c.listLRU.length + 1) c

/-! ## The order of the pages -/

/-- `LRU_clock` points to a page on the list, if to any, and no page is on the list twice. -/
structure Sound (c : Clock α κ) : Prop where
  nodup : c.listLRU.Nodup
  hand : ∀ h, c.hand = .page h → h ∈ c.listLRU

/-- The pages in the order in which `get_next_LRU_clock` comes to them. -/
def order (c : Clock α κ) : List α :=
  match c.hand with
  | .null | .tail => c.listLRU
  | .page h => (c.listLRU.dropWhile (· ≠ h)).tail ++ c.listLRU.takeWhile (· ≠ h) ++ [h]

/-- A list with a page on it, at the page. -/
theorem order_page (before behind : List α) (hp : p ∉ before) (accessed : κ → Bool) :
    order ⟨before ++ p :: behind, .page p, accessed⟩ = behind ++ before ++ [p] := by
  have hne : ∀ q ∈ before, decide (q ≠ p) = true := fun q hq ↦
    decide_eq_true fun heq ↦ hp (heq ▸ hq)
  simp only [order, dropWhile_append_of_pos hne, takeWhile_append_of_pos hne]
  simp

theorem listNext_append {before behind : List α} (hp : p ∉ before) :
    listNext p (before ++ p :: behind) =
      match behind with
      | [] => .tail
      | q :: _ => .page q := by
  induction before with
  | nil => simp [listNext]
  | cons q before ih =>
    obtain ⟨hne, hp⟩ := not_or.mp (mt mem_cons.mpr hp)
    rw [cons_append, listNext.eq_def]
    simp only [if_neg (Ne.symm hne), ih hp]

/-- Where `LRU_clock` is. -/
theorem Sound.cases (h : c.Sound) : ((c.hand = .null ∨ c.hand = .tail) ∧ c.order = c.listLRU) ∨
    ∃ p before behind, c.hand = .page p ∧ c.listLRU = before ++ p :: behind ∧ p ∉ before ∧
      p ∉ behind ∧ c.order = behind ++ before ++ [p] := by
  obtain ⟨listLRU, hand, accessed⟩ := c
  cases hand with
  | null => exact .inl ⟨.inl rfl, rfl⟩
  | tail => exact .inl ⟨.inr rfl, rfl⟩
  | page p =>
    obtain ⟨before, behind, hsplit⟩ := append_of_mem (h.hand p rfl)
    obtain rfl : listLRU = _ := hsplit
    have hnodup := nodup_append.mp h.nodup
    have hbefore : p ∉ before := fun hp ↦ hnodup.2.2 p hp p mem_cons_self rfl
    have hbehind : p ∉ behind := (nodup_cons.mp hnodup.2.1).1
    exact .inr ⟨p, before, behind, rfl, rfl, hbefore, hbehind, order_page _ _ hbefore accessed⟩

theorem Sound.perm (h : c.Sound) : c.order.Perm c.listLRU := by
  rcases h.cases with ⟨-, heq⟩ | ⟨p, before, behind, -, hlist, -, -, heq⟩
  · rw [heq]
  · rw [heq, hlist, append_assoc]
    exact perm_append_comm.trans (by simp [append_assoc])

/-- Examining a page moves it from the front of the order to the back. -/
theorem getNextLRUClock_eq (h : c.Sound) (hne : c.listLRU ≠ []) :
    ∃ p rest, c.order = p :: rest ∧ c.getNextLRUClock = (some p, { c with hand := .page p }) ∧
      order { c with hand := .page p } = rest ++ [p] := by
  obtain ⟨listLRU, hand, accessed⟩ := c
  -- from either end of the list, the search starts at the front
  have hfirst : ∀ hand', ∃ p rest, listLRU = p :: rest ∧
      firstLRUClock ⟨listLRU, hand', accessed⟩ = (some p, ⟨listLRU, .page p, accessed⟩) ∧
      order ⟨listLRU, .page p, accessed⟩ = rest ++ [p] := by
    intro hand'
    obtain ⟨p, rest, rfl⟩ := exists_cons_of_ne_nil hne
    have horder := order_page [] rest (not_mem_nil (a := p)) accessed
    exact ⟨p, rest, rfl, rfl, by simpa using horder⟩
  rcases h.cases with ⟨hend, horder⟩ | ⟨p, before, behind, hhand, hlist, hbefore, hbehind, horder⟩
  · obtain ⟨p, rest, hcons, hnext, hnew⟩ := hfirst hand
    refine ⟨p, rest, horder.trans hcons, ?_, hnew⟩
    rcases hend with rfl | rfl
    · exact hnext
    · exact hnext
  · obtain rfl : hand = .page p := hhand
    obtain rfl : listLRU = _ := hlist
    cases behind with
    | nil =>
      obtain ⟨q, rest, hcons, hnext, hnew⟩ := hfirst .tail
      refine ⟨q, rest, ?_, ?_, hnew⟩
      · rw [horder, ← hcons]
        rfl
      · rw [getNextLRUClock]
        simp only [listNext_append hbefore]
        exact hnext
    | cons q behind =>
      have hq : q ∉ before ++ [p] := by
        have hnodup := h.nodup
        simp only [nodup_append, nodup_cons, mem_cons] at hnodup
        grind
      refine ⟨q, behind ++ before ++ [p], horder, ?_, ?_⟩
      · rw [getNextLRUClock]
        simp only [listNext_append hbefore]
      · have hnew := order_page (before ++ [p]) behind hq accessed
        simpa using hnew

omit [DecidableEq α] in
theorem Sound.getNextLRUClock (h : c.Sound) (hp : p ∈ c.listLRU) :
    Sound { c with hand := .page p } :=
  ⟨h.nodup, fun q hq ↦ by cases hq; exact hp⟩

/-- A page that is put on the list does not change the order of the others. -/
theorem Sound.addPageToListLRU (h : c.Sound) (hp : p ∉ c.listLRU) :
    (c.addPageToListLRU p).Sound ∧ c.order.Sublist (c.addPageToListLRU p).order := by
  refine ⟨⟨?_, fun q hq ↦ mem_append_left _ (h.hand q hq)⟩, ?_⟩
  · exact nodup_append.mpr ⟨h.nodup, nodup_singleton p, by simp; grind⟩
  · obtain ⟨listLRU, hand, accessed⟩ := c
    rcases h.cases with ⟨hend, horder⟩ | ⟨q, before, behind, hhand, hlist, hbefore, hbehind, horder⟩
    · rw [horder]
      rcases hend with rfl | rfl
      · exact sublist_append_left _ _
      · exact sublist_append_left _ _
    · obtain rfl : hand = .page q := hhand
      obtain rfl : listLRU = _ := hlist
      have hnew := order_page before (behind ++ [p]) hbefore accessed
      rw [horder, Clock.addPageToListLRU]
      simp only [append_assoc, cons_append, nil_append] at hnew ⊢
      rw [hnew]
      exact (sublist_cons_self p _).append_left _

/-- A page that is taken off the list does not change the order of the others, unless `LRU_clock` is
moved on to the next page. -/
theorem Sound.delPageFromListLRU (h : c.Sound)
    (hlast : c.hand = .page p → c.listLRU.getLast? = some p) :
    (c.delPageFromListLRU p).Sound ∧ (c.delPageFromListLRU p).order = c.order.erase p := by
  have hnodup : c.order.Nodup := h.perm.nodup_iff.mpr h.nodup
  rw [hnodup.erase_eq_filter]
  obtain ⟨listLRU, hand, accessed⟩ := c
  rw [Clock.delPageFromListLRU]
  simp only [h.nodup.erase_eq_filter]
  have hfilter : (listLRU.filter (· != p)).Nodup := h.nodup.filter _
  rcases h.cases with ⟨hend, horder⟩ | ⟨q, before, behind, hhand, hlist, hbefore, hbehind, horder⟩
  · rw [horder]
    rcases hend with rfl | rfl
    · exact ⟨⟨hfilter, nofun⟩, rfl⟩
    · exact ⟨⟨hfilter, nofun⟩, rfl⟩
  · obtain rfl : hand = .page q := hhand
    obtain rfl : listLRU = _ := hlist
    rw [horder]
    by_cases hqp : q = p
    · subst hqp
      have hnil : behind = [] := by
        rcases eq_nil_or_concat behind with hnil | ⟨l, r, rfl⟩
        · exact hnil
        · have hr : r = q := by
            have hlast := hlast rfl
            rw [concat_eq_append, ← cons_append, ← append_assoc,
              List.getLast?_concat] at hlast
            exact some.inj hlast
          exact absurd (by simp [hr]) hbehind
      subst hnil
      rw [if_pos rfl, listNext_append hbefore]
      refine ⟨⟨hfilter, nofun⟩, ?_⟩
      simp [order]
    · have hne : (Hand.page q : Hand α) ≠ .page p := fun heq ↦ hqp (Hand.page.inj heq)
      have hkeep : (before ++ q :: behind).filter (· != p) =
          before.filter (· != p) ++ q :: behind.filter (· != p) := by
        simp [hqp]
      rw [if_neg hne, hkeep]
      refine ⟨⟨hkeep ▸ hfilter, fun r hr ↦ ?_⟩, ?_⟩
      · cases hr
        simp
      · rw [order_page _ _ (fun hq ↦ hbefore (mem_of_mem_filter hq))]
        simp [hqp]

/-! ## The search for a victim -/

section

variable [DecidableEq κ] {key : α → κ}

omit [DecidableEq α] in
theorem Sound.examine (h : c.Sound) (hp : p ∈ c.listLRU) (k : κ) :
    ({ c with hand := .page p }.clearAccessed k).Sound :=
  ⟨(h.getNextLRUClock hp).nodup, (h.getNextLRUClock hp).hand⟩

/-- With no page on the list, `ASSERT (e != NULL)` fails. -/
theorem listLRU_ne_nil_of_getVictim {r : List (ClockEvent α) × α × Clock α κ} (h : c.Sound)
    (hrun : c.getVictim key = some r) : c.listLRU ≠ [] := by
  intro hnil
  have hnext : c.getNextLRUClock.1 = none := by
    rcases h.cases with ⟨hend | hend, -⟩ | ⟨p, before, behind, -, hlist, -⟩
    · rw [getNextLRUClock, hend, firstLRUClock, hnil]
    · rw [getNextLRUClock, hend, firstLRUClock, hnil]
    · rw [hnil] at hlist
      simp at hlist
  rw [getVictim, getVictimLoop] at hrun
  simp [hnext] at hrun

/-- One round of the loop. -/
theorem getVictimLoop_succ (key : α → κ) (fuel : Nat) (h : c.Sound) (hne : c.listLRU ≠ []) :
    ∃ p rest, c.order = p :: rest ∧ p ∈ c.listLRU ∧ order { c with hand := .page p } = rest ++ [p] ∧
      getVictimLoop key (fuel + 1) c =
        if c.accessed (key p) then
          (getVictimLoop key fuel ({ c with hand := .page p }.clearAccessed (key p))).map
            fun r ↦ (.examined p true c.listLRU :: r.1, r.2)
        else some ([.examined p false c.listLRU], p, { c with hand := .page p }) := by
  obtain ⟨p, rest, horder, hnext, hnew⟩ := getNextLRUClock_eq h hne
  have hp : p ∈ c.listLRU := h.perm.mem_iff.mp (horder ▸ mem_cons_self)
  refine ⟨p, rest, horder, hp, hnew, ?_⟩
  rw [getVictimLoop, hnext]
  simp only [bind_eq_bind, bind_some]
  split
  · cases getVictimLoop key fuel ({ c with hand := .page p }.clearAccessed (key p)) <;> rfl
  · rfl

/-! ## Which page it is -/

/-- How many pages of the list come before the first one that `get_next_LRU_clock` comes to. -/
def start (c : Clock α κ) : Nat :=
  match c.hand with
  | .null | .tail => 0
  | .page h => c.listLRU.idxOf h + 1

omit [DecidableEq κ] in
/-- The order is the list, from the page behind `LRU_clock` on, and round. -/
theorem Sound.order_eq_rotate (h : c.Sound) : c.order = c.listLRU.rotate c.start := by
  obtain ⟨listLRU, hand, accessed⟩ := c
  rcases h.cases with ⟨hend, horder⟩ | ⟨p, before, behind, hhand, hlist, hbefore, -, horder⟩
  · rw [horder, start]
    rcases hend with rfl | rfl
    · exact (rotate_zero _).symm
    · exact (rotate_zero _).symm
  · obtain rfl : hand = .page p := hhand
    obtain rfl : listLRU = _ := hlist
    have hstart : start ⟨before ++ p :: behind, .page p, accessed⟩ = (before ++ [p]).length := by
      simp [start, idxOf_append_of_notMem hbefore]
    have hsplit : before ++ p :: behind = (before ++ [p]) ++ behind := by simp
    rw [horder, hstart, hsplit, rotate_append_length_eq, append_assoc]

/-- The pages that are passed over, when they are examined in the order `pages`. -/
def passedOver (c : Clock α κ) (key : α → κ) (pages : List α) : List α :=
  pages.takeWhile fun p ↦ c.accessed (key p)

/-- What `get_victim` returns when it examines the pages in the order `pages` and stops at
`victim`. -/
def victimFound (c : Clock α κ) (key : α → κ) (pages : List α) (victim : α) :
    List (ClockEvent α) × α × Clock α κ :=
  ((c.passedOver key pages).map (fun p ↦ .examined p true c.listLRU) ++
      [.examined victim false c.listLRU],
    victim, ⟨c.listLRU, .page victim,
      fun k ↦ c.accessed k && !(c.passedOver key pages).any fun p ↦ key p = k⟩)

omit [DecidableEq α] in
/-- The bits of the other pages, after one is passed over. -/
theorem accessed_clearAccessed {rest : List α} (hkeys : ((p :: rest).map key).Nodup) :
    ∀ q ∈ rest, (c.clearAccessed (key p)).accessed (key q) = c.accessed (key q) := by
  intro q hq
  refine update_of_ne ?_ _ _
  rw [map_cons, nodup_cons] at hkeys
  exact fun heq ↦ hkeys.1 (heq ▸ List.mem_map_of_mem hq)

omit [DecidableEq α] in
/-- The last element stops a search that has not stopped before. -/
theorem takeWhile_concat {a : α} {l : List α} {P Q : α → Bool} (ha : Q a = false)
    (h : ∀ b ∈ l, Q b = P b) :
    (l ++ [a]).takeWhile Q = l.takeWhile P ∧ (l ++ [a]).dropWhile Q = l.dropWhile P ++ [a] := by
  induction l with
  | nil =>
    exact ⟨takeWhile_cons_of_neg (by simp [ha]), dropWhile_cons_of_neg (by simp [ha])⟩
  | cons b l ih =>
    obtain ⟨htake, hdrop⟩ := ih fun b' hb' ↦ h b' (mem_cons_of_mem b hb')
    rw [cons_append, takeWhile_cons, takeWhile_cons, dropWhile_cons,
      dropWhile_cons, h b mem_cons_self, htake, hdrop]
    cases P b <;> simp

omit [DecidableEq α] in
/-- The search goes on with the rest, and stops at `p`, whose bit is cleared, at the latest. -/
theorem passedOver_clearAccessed {rest : List α} (hkeys : ((p :: rest).map key).Nodup) :
    (c.clearAccessed (key p)).passedOver key (rest ++ [p]) = c.passedOver key rest ∧
      (rest ++ [p]).dropWhile (fun q ↦ (c.clearAccessed (key p)).accessed (key q)) =
        rest.dropWhile (fun q ↦ c.accessed (key q)) ++ [p] := by
  have hclear : (c.clearAccessed (key p)).accessed (key p) = false := update_self ..
  exact takeWhile_concat hclear (accessed_clearAccessed hkeys)

/-- The loop of `get_victim`.  A page that is passed over goes to the back of the order with its bit
cleared, so the search stops there if it has not stopped before. -/
theorem getVictimLoop_eq {fuel : Nat} (h : c.Sound) (hne : c.listLRU ≠ [])
    (hkeys : (c.listLRU.map key).Nodup) (hfuel : (c.passedOver key c.order).length < fuel) :
    ∃ victim, (c.order.dropWhile (fun p ↦ c.accessed (key p)) ++ c.order).head? = some victim ∧
      getVictimLoop key fuel c = some (c.victimFound key c.order victim) := by
  induction fuel generalizing c with
  | zero => exact absurd hfuel (Nat.not_lt_zero _)
  | succ fuel ih =>
    obtain ⟨p, rest, horder, hp, hnew, hround⟩ := getVictimLoop_succ key fuel h hne
    have hkeys' : ((p :: rest).map key).Nodup := by
      rw [← horder]
      exact ((h.perm.map key).nodup_iff).mpr hkeys
    rw [hround, horder]
    rw [horder] at hfuel
    cases hbit : c.accessed (key p) with
    | false =>
      refine ⟨p, ?_, ?_⟩
      · rw [dropWhile_cons_of_neg (by simp [hbit])]
        rfl
      · have hnil : c.passedOver key (p :: rest) = [] := takeWhile_cons_of_neg (by simp [hbit])
        rw [if_neg Bool.false_ne_true, victimFound, hnil]
        simp
    | true =>
      have hcons : c.passedOver key (p :: rest) = p :: c.passedOver key rest :=
        takeWhile_cons_of_pos hbit
      have hdropped : (p :: rest).dropWhile (fun q ↦ c.accessed (key q)) =
          rest.dropWhile fun q ↦ c.accessed (key q) := dropWhile_cons_of_pos hbit
      have horder' : ({ c with hand := .page p }.clearAccessed (key p)).order = rest ++ [p] := hnew
      obtain ⟨hpass, hdrop⟩ := passedOver_clearAccessed (c := { c with hand := .page p }) hkeys'
      have hpass' : ({ c with hand := .page p }.clearAccessed (key p)).passedOver key
          (rest ++ [p]) = c.passedOver key rest := hpass
      rw [hcons, length_cons] at hfuel
      obtain ⟨victim, hvictim, heq⟩ := ih (h.examine hp (key p)) hne hkeys (by
        rw [horder', hpass']
        exact Nat.lt_of_succ_lt_succ hfuel)
      rw [horder', hdrop] at hvictim
      refine ⟨victim, ?_, ?_⟩
      · rw [hdropped, ← hvictim]
        cases rest.dropWhile fun q ↦ c.accessed (key q) <;> rfl
      · have hbits : (fun k ↦ ({ c with hand := .page p }.clearAccessed (key p)).accessed k &&
              !(c.passedOver key rest).any fun q ↦ key q = k) =
            fun k ↦ c.accessed k && !(p :: c.passedOver key rest).any fun q ↦ key q = k := by
          funext k
          by_cases hk : k = key p
          · subst hk
            simp [clearAccessed]
          · simp [clearAccessed, update_of_ne hk, Ne.symm hk]
        rw [if_pos rfl, heq, horder', victimFound, victimFound, hpass', hcons, hbits]
        rfl

/-- **The clock.**  On a list of pages that have different keys, with `LRU_clock` null, at the tail
or at any page, and whatever the accessed bits are, `get_victim` examines the pages in the order of
the list, from the page behind `LRU_clock` on and round.  It passes over those in front whose bit is
set, all of them if need be, and returns the next one.  The bits of the pages it has passed over are
cleared, `LRU_clock` is at the victim, and nothing else has changed. -/
theorem get_victim_exact (key : α → κ) (hne : c.listLRU ≠ []) (hkeys : (c.listLRU.map key).Nodup)
    (hhand : ∀ h, c.hand = .page h → h ∈ c.listLRU) :
    ∃ victim, ((c.listLRU.rotate c.start).dropWhile (fun p ↦ c.accessed (key p)) ++
        c.listLRU.rotate c.start).head? = some victim ∧
      c.getVictim key = some (c.victimFound key (c.listLRU.rotate c.start) victim) := by
  have hsound : c.Sound := ⟨hkeys.of_map, hhand⟩
  rw [← hsound.order_eq_rotate]
  refine getVictimLoop_eq hsound hne hkeys (Nat.lt_succ_of_le ?_)
  calc (c.passedOver key c.order).length ≤ c.order.length := ( takeWhile_prefix _).length_le
    _ = c.listLRU.length := hsound.perm.length_eq

/-- All bits are set, and `LRU_clock` is at page 1: the pages 2, 0 and 1 are passed over, and 2 is
the victim. -/
theorem get_victim_exact_allSet :
    getVictim id (⟨[0, 1, 2], .page 1, fun _ ↦ true⟩ : Clock Nat Nat) =
      some (victimFound ⟨[0, 1, 2], .page 1, fun _ ↦ true⟩ id [2, 0, 1] 2) := by
  obtain ⟨victim, hvictim, heq⟩ :=
    get_victim_exact (c := ⟨[0, 1, 2], .page 1, fun _ ↦ true⟩) (id : Nat → Nat) (by decide)
      (by decide) fun h hh ↦ by cases hh; decide
  cases hvictim
  exact heq

/-! ## Runs -/

/-- The calls that change the list, and the processor, which may set accessed bits. -/
inductive Call (α κ : Type) where
  | getVictim
  | freePage (page : α)
  | addPage (page : α)
  | access (accessed : κ → Bool)

/-- A clock, and what has happened to the pages. -/
structure History (α κ : Type) where
  clock : Clock α κ
  trace : List (ClockEvent α)

/-- One call.  `__free_page` is called for a page on the list, and `add_page_to_list_LRU` for one
that is not. -/
def History.step (key : α → κ) (s : History α κ) : Call α κ → Option (History α κ)
  | .getVictim => do
    let (seen, _, clock) ← s.clock.getVictim key
    return ⟨clock, s.trace ++ seen⟩
  | .freePage page =>
    if page ∈ s.clock.listLRU then
      some ⟨s.clock.delPageFromListLRU page, s.trace ++ [.freed page]⟩
    else none
  | .addPage page =>
    if page ∈ s.clock.listLRU then none
    else some { s with clock := s.clock.addPageToListLRU page }
  | .access accessed => some { s with clock := { s.clock with accessed } }

/-- `q` was on the list when `p` was passed over, both have stayed there, and `q` has not been
examined. -/
def Waits (trace : List (ClockEvent α)) (q p : α) : Prop :=
  ∃ before listLRU since, trace = before ++ .examined p true listLRU :: since ∧
    q ∈ listLRU ∧ q ≠ p ∧ .freed p ∉ since ∧ .freed q ∉ since ∧
    ∀ passed list, .examined q passed list ∉ since

/-- Whenever a page is examined, no other page has waited since it was passed over. -/
def Fair (trace : List (ClockEvent α)) : Prop :=
  ∀ before p passed listLRU after,
    trace = before ++ .examined p passed listLRU :: after → ∀ q, ¬ Waits before q p

omit [DecidableEq α] in
/-- The last event. -/
theorem waits_concat {trace : List (ClockEvent α)} {e : ClockEvent α} : Waits (trace ++ [e]) q p ↔
      (∃ listLRU, e = .examined p true listLRU ∧ q ∈ listLRU ∧ q ≠ p) ∨
      (Waits trace q p ∧ e ≠ .freed p ∧ e ≠ .freed q ∧
        ∀ passed list, e ≠ .examined q passed list) := by
  constructor
  · rintro ⟨before, listLRU, since, heq, hq, hne, hp, hfree, hexam⟩
    rcases eq_nil_or_concat since with rfl | ⟨since, e', rfl⟩
    · obtain ⟨-, he⟩ := append_inj' heq rfl
      exact .inl ⟨listLRU, singleton_inj.mp he, hq, hne⟩
    · have hconcat : trace ++ [e] = (before ++ .examined p true listLRU :: since) ++ [e'] := by
        simpa using heq
      obtain ⟨rfl, he⟩ := append_inj' hconcat rfl
      obtain rfl := singleton_inj.mp he
      simp only [concat_eq_append, mem_append, mem_singleton, not_or]
        at hp hfree hexam
      exact .inr ⟨⟨before, listLRU, since, rfl, hq, hne, hp.1, hfree.1, fun b l ↦ (hexam b l).1⟩,
        Ne.symm hp.2, Ne.symm hfree.2, fun b l ↦ Ne.symm (hexam b l).2⟩
  · rintro (⟨listLRU, rfl, hq, hne⟩ |
      ⟨⟨before, listLRU, since, rfl, hq, hne, hp, hfree, hexam⟩, h1, h2, h3⟩)
    · exact ⟨trace, listLRU, [], rfl, hq, hne, not_mem_nil, not_mem_nil,
        fun _ _ ↦ not_mem_nil⟩
    · refine ⟨before, listLRU, since ++ [e], by simp, hq, hne, ?_, ?_, fun passed list ↦ ?_⟩
      · simpa using ⟨hp, h1.symm⟩
      · simpa using ⟨hfree, h2.symm⟩
      · simpa using ⟨hexam passed list, (h3 passed list).symm⟩

omit [DecidableEq α] in
theorem Fair.concat {trace : List (ClockEvent α)} {e : ClockEvent α} (h : Fair trace)
    (he : ∀ p passed listLRU, e = .examined p passed listLRU → ∀ q, ¬ Waits trace q p) :
    Fair (trace ++ [e]) := by
  intro before p passed listLRU after heq
  rcases eq_nil_or_concat after with rfl | ⟨after, e', rfl⟩
  · obtain ⟨rfl, hlast⟩ := append_inj' heq rfl
    exact he p passed listLRU (singleton_inj.mp hlast)
  · have hconcat : trace ++ [e] = (before ++ .examined p passed listLRU :: after) ++ [e'] := by
      simpa using heq
    exact h before p passed listLRU after (append_inj' hconcat rfl).1

namespace History

/-- What holds between two calls: a page that waits is before the one that was passed over. -/
structure Ordered (s : History α κ) : Prop where
  sound : s.clock.Sound
  before : ∀ q p, Waits s.trace q p → [q, p].Sublist s.clock.order
  fair : Fair s.trace

variable {s s' : History α κ}

omit [DecidableEq κ] in
/-- One page is examined. -/
theorem Ordered.examine (h : s.Ordered) {rest : List α} (horder : s.clock.order = p :: rest)
    (hnew : order { s.clock with hand := .page p } = rest ++ [p]) (passed : Bool)
    (accessed : κ → Bool) :
    Ordered ⟨⟨s.clock.listLRU, .page p, accessed⟩,
      s.trace ++ [.examined p passed s.clock.listLRU]⟩ := by
  have hp : p ∈ s.clock.listLRU := h.sound.perm.mem_iff.mp (horder ▸ mem_cons_self)
  have hnodup : (p :: rest).Nodup := horder ▸ h.sound.perm.nodup_iff.mpr h.sound.nodup
  have hsound := h.sound.getNextLRUClock hp
  -- nothing waits for the page at the front
  have hfront : ∀ q, ¬ Waits s.trace q p := by
    intro q hw
    have hbefore := h.before q p hw
    obtain ⟨-, -, -, -, -, hne, -⟩ := hw
    rw [horder] at hbefore
    have hrest : [q, p].Sublist rest := by
      cases hbefore with
      | cons _ hrest => exact hrest
      | cons_cons => exact absurd rfl hne
    exact (nodup_cons.mp hnodup).1 (hrest.subset (by simp))
  refine ⟨⟨hsound.nodup, hsound.hand⟩, fun q r hw ↦ ?_, h.fair.concat fun r b l he ↦ ?_⟩
  · have horder' : order ⟨s.clock.listLRU, .page p, accessed⟩ = rest ++ [p] := hnew
    show [q, r].Sublist (order ⟨s.clock.listLRU, .page p, accessed⟩)
    rw [horder']
    rcases waits_concat.mp hw with ⟨l, he, hq, hne⟩ | ⟨hw, -, -, hexam⟩
    · obtain ⟨rfl, -, rfl⟩ := ClockEvent.examined.inj he
      have hq : q ∈ p :: rest := horder ▸ h.sound.perm.mem_iff.mpr hq
      have hq : q ∈ rest := (mem_cons.mp hq).resolve_left hne
      exact (singleton_sublist.mpr hq).append_right [p]
    · have hqp : q ≠ p := by
        rintro rfl
        exact hexam _ _ rfl
      have hrest := h.before q r hw
      rw [horder] at hrest
      refine List.Sublist.trans ?_ (sublist_append_left rest [p])
      cases hrest with
      | cons _ hrest => exact hrest
      | cons_cons => exact absurd rfl hqp
  · obtain ⟨rfl, -, -⟩ := ClockEvent.examined.inj he
    exact hfront

/-- The loop of `get_victim`. -/
theorem Ordered.getVictimLoop {fuel : Nat} {seen : List (ClockEvent α)} {victim : α}
    (h : s.Ordered) (hne : s.clock.listLRU ≠ [])
    (hrun : Clock.getVictimLoop key fuel s.clock = some (seen, victim, c)) :
    Ordered ⟨c, s.trace ++ seen⟩ := by
  induction fuel generalizing s seen with
  | zero => cases hrun
  | succ fuel ih =>
    obtain ⟨p, rest, horder, hp, hnew, hround⟩ := getVictimLoop_succ key fuel h.sound hne
    rw [hround] at hrun
    split at hrun
    · obtain ⟨⟨seen', victim', c'⟩, hrest, heq⟩ := map_eq_some_iff.mp hrun
      cases heq
      have hexam := h.examine horder hnew true (Function.update s.clock.accessed (key p) false)
      simpa using ih hexam hne hrest
    · cases hrun
      exact h.examine horder hnew false s.clock.accessed

/-- If `LRU_clock` is at a page that is freed, that page is the last one on the list. -/
def FreesLast (s : History α κ) : Call α κ → Prop
  | .freePage p => s.clock.hand = .page p → s.clock.listLRU.getLast? = some p
  | _ => True

omit [DecidableEq κ] in
instance (s : History α κ) (call : Call α κ) : Decidable (s.FreesLast call) := by
  unfold FreesLast
  split <;> infer_instance

theorem Ordered.step {call : Call α κ} (h : s.Ordered) (hlast : s.FreesLast call)
    (hstep : s.step key call = some s') : s'.Ordered := by
  cases call with
  | getVictim =>
    simp only [History.step, bind_eq_bind, bind_eq_some_iff] at hstep
    obtain ⟨⟨seen, victim, c⟩, hrun, hstep⟩ := hstep
    cases hstep
    exact h.getVictimLoop (listLRU_ne_nil_of_getVictim h.sound hrun) hrun
  | freePage page =>
    simp only [History.step] at hstep
    split at hstep
    · cases hstep
      obtain ⟨hsound, horder⟩ := h.sound.delPageFromListLRU hlast
      refine ⟨hsound, fun q r hw ↦ ?_, h.fair.concat fun r b l he ↦ by cases he⟩
      rcases waits_concat.mp hw with ⟨l, he, -⟩ | ⟨hw, hr, hq, -⟩
      · cases he
      · have hmem : page ∉ [q, r] := by
          simp only [mem_cons, not_mem_nil, or_false, not_or]
          exact ⟨fun heq ↦ hq (heq ▸ rfl), fun heq ↦ hr (heq ▸ rfl)⟩
        have hsub := (h.before q r hw).erase page
        rw [erase_of_not_mem hmem] at hsub
        exact horder ▸ hsub
    · cases hstep
  | addPage page =>
    simp only [History.step] at hstep
    split at hstep
    · cases hstep
    · next hmem =>
      cases hstep
      obtain ⟨hsound, hsub⟩ := h.sound.addPageToListLRU hmem
      exact ⟨hsound, fun q r hw ↦ (h.before q r hw).trans hsub, h.fair⟩
  | access accessed =>
    cases hstep
    exact ⟨⟨h.sound.nodup, h.sound.hand⟩, h.before, h.fair⟩

end History

/-- **Second chance.**  If `LRU_clock` is never at a page that is freed, other than the last one on
the list, then a page that has been passed over is not examined again before every other page that
was on the list then, and has stayed there, has been examined. -/
theorem second_chance (key : α → κ) {accessed : κ → Bool} {calls : List (Call α κ)}
    {s : History α κ}
    (hlast : Run.Meets (History.step key) History.FreesLast ⟨listLRUInit accessed, []⟩ calls)
    (hrun : Run.run (History.step key) ⟨listLRUInit accessed, []⟩ calls = some s) :
    Fair s.trace := by
  have hinit : History.Ordered (⟨listLRUInit accessed, []⟩ : History α κ) := by
    refine ⟨⟨nodup_nil, nofun⟩, fun q p hw ↦ ?_, fun before p passed listLRU after heq ↦ ?_⟩
    · obtain ⟨before, listLRU, since, heq, -⟩ := hw
      simp at heq
    · simp at heq
  exact (Run.invariant (fun _ _ _ h hc hstep ↦ h.step hc hstep) hinit hlast hrun).fair

end

/-- The pages 0, 1 and 2 are put on the list, and 0 is accessed. -/
def threePages : List (Call Nat Nat) :=
  [.addPage 0, .addPage 1, .addPage 2, .access fun p ↦ p = 0]

/-- Page 0 is passed over, and page 1 is the victim; the last page is freed, and then page 2 is the
next victim. -/
theorem second_chance_threePages : ∃ s, Run.run (History.step id) ⟨listLRUInit fun _ ↦ false, []⟩
        (threePages ++ [.getVictim, .getVictim, .freePage 2, .getVictim]) = some s ∧
      s.trace = [.examined 0 true [0, 1, 2], .examined 1 false [0, 1, 2],
        .examined 2 false [0, 1, 2], .freed 2, .examined 0 false [0, 1]] ∧ Fair s.trace := by
  have hlast : Run.Meets (History.step id) History.FreesLast ⟨listLRUInit fun _ ↦ false, []⟩
      (threePages ++ [.getVictim, .getVictim, .freePage 2, .getVictim]) := by decide
  exact ⟨_, rfl, rfl, second_chance id hlast rfl⟩

/-- **Page 2 gets no turn.**  Page 0 is passed over, and page 1 is the victim.  When it is freed,
`LRU_clock` is moved on to page 2; the next search begins behind it, and page 0 is examined while
page 2 has not been. -/
theorem victim_skips_successor : ∃ s, Run.run (History.step id) ⟨listLRUInit fun _ ↦ false, []⟩
        (threePages ++ [.getVictim, .freePage 1, .getVictim]) = some s ∧
      s.trace = [.examined 0 true [0, 1, 2], .examined 1 false [0, 1, 2], .freed 1,
        .examined 0 false [0, 2]] ∧ ¬ Fair s.trace := by
  refine ⟨_, rfl, rfl, fun hfair ↦ ?_⟩
  refine hfair [.examined 0 true [0, 1, 2], .examined 1 false [0, 1, 2], .freed 1] 0 false [0, 2] []
    rfl 2 ⟨[], [0, 1, 2], [.examined 1 false [0, 1, 2], .freed 1], rfl, ?_⟩
  simp

end Clock

end Pintos
