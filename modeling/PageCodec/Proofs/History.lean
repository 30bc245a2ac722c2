import Mathlib.Data.List.Forall2
import PageCodec.Proofs.Trace

/-!
# Tags from the history of a run

What tag a word gets can be said without a dictionary.  A word is compared with the last nonzero
word before it that has the same slot, or with the word of a new dictionary if there is none, and
this goes on from page to page as long as the dictionary is kept.

* `History.latest` — the last nonzero word of a slot.
* `History.tag` — the tag of a word that comes after others.
* `Dictionary.Remembers` — a dictionary holds the last nonzero word of each slot; a new one
  remembers the empty history, and every word that it sees keeps it so
  (`Dictionary.Remembers.see`).
* `Scan.pages` — pages scanned one after another with one dictionary.
* `Scan.FollowsHistory` — the tags of such a series, what is written down of each page, and what the
  dictionary holds at every word and afterwards.
* `Scan.pages_history` — every series follows its history.
-/

namespace PageCodec

/-! ## The rule -/

namespace History

/-- The last nonzero word of a slot, or the word of a new dictionary if there is none. -/
def latest (before : List Word) (s : Slot) : Word :=
  (before.filter fun v => v ≠ 0 ∧ v.slot = s).getLast?.getD Dictionary.sentinel

/-- The tag of a word that comes after others. -/
def tag (before : List Word) (w : Word) : Tag :=
  if w = 0 then .zero
  else if w = latest before w.slot then .exactMatch
  else if w.high = (latest before w.slot).high then .partialMatch
  else .miss

theorem latest_concat (before : List Word) (w : Word) (s : Slot) :
    latest (before ++ [w]) s = if w ≠ 0 ∧ w.slot = s then w else latest before s := by
  by_cases h : w ≠ 0 ∧ w.slot = s
  · rw [if_pos h, latest, List.filter_append, List.filter_cons_of_pos (by simpa using h),
      List.filter_nil, List.getLast?_append]
    rfl
  · rw [if_neg h, latest, List.filter_append, List.filter_cons_of_neg (by simpa using h),
      List.filter_nil, List.append_nil, latest]

/-- A word that is looked back to is never zero. -/
theorem latest_ne_zero (before : List Word) (s : Slot) : latest before s ≠ 0 := by
  rw [latest]
  cases h : (before.filter fun v => v ≠ 0 ∧ v.slot = s).getLast? with
  | none => decide
  | some v =>
    have hv := List.mem_of_getLast? h
    rw [List.mem_filter, decide_eq_true_eq] at hv
    exact hv.2.1

end History

/-! ## The dictionary as a memory of the run -/

namespace Dictionary

/-- In every slot there is the last nonzero word of the slot. -/
def Remembers (d : Dictionary) (before : List Word) : Prop :=
  ∀ s, d.get s = History.latest before s

namespace Remembers

theorem new : Remembers new [] := get_new

variable {d : Dictionary} {before : List Word}

/-- Equality is looked at before zero in a scan and after it in the rule.  It makes no difference,
since zero is never remembered. -/
theorem tag_eq (h : d.Remembers before) (w : Word) : d.tag w = History.tag before w := by
  have hne := History.latest_ne_zero before w.slot
  rw [Dictionary.tag, h w.slot, Tag.classify, History.tag]
  by_cases h0 : w = 0
  · subst h0
    rw [if_neg hne.symm, if_pos rfl, if_pos rfl]
  · rw [if_neg h0, if_neg h0]

/-- A dictionary that has seen one more word remembers it.  An exact match is not stored, but it is
there already, and a zero word is no part of what is looked back to. -/
theorem see (h : d.Remembers before) (w : Word) : (d.see w).Remembers (before ++ [w]) := by
  intro s
  rw [History.latest_concat, get_see, h s]

theorem seeAll (h : d.Remembers before) (ws : List Word) :
    (d.seeAll ws).Remembers (before ++ ws) := by
  induction ws generalizing d before with
  | nil => rwa [List.append_nil]
  | cons w ws ih =>
    have hrest := ih (h.see w)
    rwa [List.append_assoc] at hrest

/-- The tags of a run, each from the words before it. -/
theorem getElem?_tags (h : d.Remembers before) (ws : List Word) (i : Nat) :
    (d.trace ws).tags[i]? = ws[i]?.map (History.tag (before ++ ws.take i)) := by
  induction ws generalizing d before i with
  | nil => rfl
  | cons w ws ih =>
    cases i with
    | zero =>
      rw [List.take_zero, List.append_nil]
      exact congrArg some (h.tag_eq w)
    | succ i =>
      have hrest := ih (h.see w) i
      rw [List.append_assoc] at hrest
      exact hrest

/-- The zero words of a run are those that get the tag of a zero word. -/
theorem tag_eq_zero_iff (h : d.Remembers before) {ws : List Word} {a : Tag × Word}
    (ha : a ∈ d.trace ws) : a.1 = .zero ↔ a.2 = 0 := by
  induction ws generalizing d before with
  | nil => cases ha
  | cons w ws ih =>
    rcases List.mem_cons.1 ha with rfl | ha
    · show d.tag w = .zero ↔ w = 0
      rw [h.tag_eq, History.tag]
      by_cases hw : w = 0
      · simp [hw]
      · rw [if_neg hw]
        split
        · simp [hw]
        · split <;> simp [hw]
    · exact ih (h.see w) ha

theorem get_ne_zero (h : d.Remembers before) (s : Slot) : d.get s ≠ 0 := by
  rw [h s]
  exact History.latest_ne_zero before s

end Remembers

end Dictionary

/-! ## Pages one after another -/

namespace Scan

/-- A page with a buffer for its full words. -/
abbrev Job := List Word × Buffer

/-- What the scan of a page leaves besides the dictionary. -/
structure Findings where
  /-- How often each tag was given. -/
  tally : Tally
  /-- The symbols of the page. -/
  streams : Streams
  /-- The buffer for full words. -/
  fullWords : Buffer

/-- Scans a page with a dictionary that is kept and with streams of its own. -/
def job (j : Job) : EStateM Stop Dictionary Findings := fun d =>
  match page j.1 ⟨d, .empty, j.2⟩ with
  | .ok tally ws => .ok ⟨tally, ws.streams, ws.fullWords⟩ ws.dictionary
  | .error e ws => .error e ws.dictionary

/-- Scans pages one after another with one dictionary. -/
def pages : List Job → EStateM Stop Dictionary (List Findings)
  | [] => pure []
  | j :: js => do
    let f ← job j
    let fs ← pages js
    return f :: fs

/-- The words of a series of pages. -/
def wordsOf (js : List Job) : List Word := js.flatMap Prod.fst

theorem wordsOf_cons (j : Job) (js : List Job) : wordsOf (j :: js) = j.1 ++ wordsOf js :=
  List.flatMap_cons

/-- The page has the length of a page, and each of its words has room among the full words. -/
def Job.Fits (j : Job) : Prop := j.1.length = Layout.pageWords ∧ Layout.pageWords ≤ j.2.length

namespace Findings

/-- The tags of a page in page order. -/
def tags (f : Findings) : List Tag := f.streams.tags.toList

/-- The words of a page, each with its tag. -/
def traceOf (f : Findings) (words : List Word) : Trace := f.tags.zip words

/-- Everything that is written down of a page besides its tags follows from the tags. -/
structure FollowTags (f : Findings) (j : Job) : Prop where
  /-- Every word has a tag. -/
  length_tags : f.tags.length = j.1.length
  /-- Each tag is counted. -/
  tally : f.tally = .count f.tags
  /-- The slots of the exact and partial matches in page order. -/
  positions : f.streams.positions.toList
    = ((f.traceOf j.1).having [.exactMatch, .partialMatch]).map Word.slot
  /-- The patterns of the partial matches in page order. -/
  patterns : f.streams.patterns.toList = ((f.traceOf j.1).having [.partialMatch]).map Word.pattern
  /-- The misses in page order, and behind them what was in the buffer. -/
  fullWords : f.fullWords = j.2.overlay ((f.traceOf j.1).having [.miss])

/-- What the scan of a page leaves, said with the trace of the page. -/
def ofTrace (t : Trace) (full : Buffer) : Findings :=
  ⟨.count t.tags, t.streams, full.overlay t.missed⟩

theorem traceOf_ofTrace (d : Dictionary) (j : Job) :
    (ofTrace (d.trace j.1) j.2).traceOf j.1 = d.trace j.1 :=
  d.zip_tags_trace j.1

theorem followTags_ofTrace (d : Dictionary) (j : Job) :
    (ofTrace (d.trace j.1) j.2).FollowTags j := by
  have htrace := traceOf_ofTrace d j
  constructor
  · exact ((d.trace j.1).length_tags).trans (d.length_trace j.1)
  · rfl
  · rw [htrace]
    rfl
  · rw [htrace]
    rfl
  · rw [htrace]
    rfl

end Findings

theorem job_eq {j : Job} (h : j.Fits) (d : Dictionary) :
    job j d = .ok (.ofTrace (d.trace j.1) j.2) (d.seeAll j.1) := by
  rw [job, page_eq d h.1 h.2]
  rfl

/-- A series of pages is scanned like the run of all their words. -/
theorem pages_eq {js : List Job} (h : ∀ j ∈ js, j.Fits) (d : Dictionary) :
    ∃ fs, pages js d = .ok fs (d.seeAll (wordsOf js))
      ∧ fs.flatMap Findings.tags = (d.trace (wordsOf js)).tags
      ∧ List.Forall₂ Findings.FollowTags fs js := by
  induction js generalizing d with
  | nil => exact ⟨[], rfl, rfl, .nil⟩
  | cons j js ih =>
    have hj : j.Fits := h j List.mem_cons_self
    obtain ⟨fs, hpages, htags, hfollow⟩ :=
      ih (fun k hk => h k (List.mem_cons_of_mem j hk)) (d.seeAll j.1)
    refine ⟨.ofTrace (d.trace j.1) j.2 :: fs, ?_, ?_, ?_⟩
    · rw [wordsOf_cons, Dictionary.seeAll_append, pages, bind_ok (job_eq hj d), bind_ok hpages]
      rfl
    · rw [wordsOf_cons, Dictionary.trace_append, Trace.tags_append, List.flatMap_cons, htags]
      rfl
    · exact .cons (Findings.followTags_ofTrace d j) hfollow

/-- In the middle of a page a dictionary remembers the words before the page and those of the page
that have been gone through. -/
theorem steps_remembers {d : Dictionary} {before : List Word} (hd : d.Remembers before) {j : Job}
    (hj : j.Fits) (n : Nat) :
    ∃ tally p, steps j.2.length .empty (j.1.take n) ⟨d, .empty, #[]⟩ = .ok tally p
      ∧ p.dictionary.Remembers (before ++ j.1.take n) := by
  obtain ⟨hsteps, -⟩ := steps_take d hj.1 hj.2 n
  exact ⟨_, _, hsteps, hd.seeAll (j.1.take n)⟩

/-- Pages that have been scanned one after another with one dictionary, with tags that the history
of their words settles. -/
structure FollowsHistory (js : List Job) (fs : List Findings) (d : Dictionary) : Prop where
  /-- All pages are scanned. -/
  scanned : pages js .new = .ok fs d
  /-- Every word has the tag that the rule gives it. -/
  tags : ∀ i, (fs.flatMap Findings.tags)[i]?
    = (wordsOf js)[i]?.map (History.tag ((wordsOf js).take i))
  /-- Everything else that is written down of a page follows from its tags. -/
  followTags : List.Forall₂ Findings.FollowTags fs js
  /-- In the end the dictionary holds the last nonzero word of each slot. -/
  remembers : d.Remembers (wordsOf js)
  /-- It does not hold zero. -/
  get_ne_zero : ∀ s, d.get s ≠ 0
  /-- The same is true at every word on the way. -/
  throughout : ∀ earlier j later, js = earlier ++ j :: later → ∀ n,
    ∃ es d' tally p, pages earlier .new = .ok es d'
      ∧ steps j.2.length .empty (j.1.take n) ⟨d', .empty, #[]⟩ = .ok tally p
      ∧ p.dictionary.Remembers (wordsOf earlier ++ j.1.take n)
      ∧ ∀ s, p.dictionary.get s ≠ 0

/-- **Tags from history.**  Pages scanned one after another with one dictionary get the tags that
the rule gives to their words, everything else that is written down of a page follows from its
tags, and at every word the dictionary holds the last nonzero word of each slot. -/
theorem pages_history (js : List Job) (h : ∀ j ∈ js, j.Fits) :
    ∃ fs d, FollowsHistory js fs d := by
  obtain ⟨fs, hpages, htags, hfollow⟩ := pages_eq h .new
  have hlast : (Dictionary.new.seeAll (wordsOf js)).Remembers (wordsOf js) :=
    Dictionary.Remembers.new.seeAll (wordsOf js)
  refine ⟨fs, _, hpages, ?_, hfollow, hlast, hlast.get_ne_zero, ?_⟩
  · intro i
    rw [htags]
    exact Dictionary.Remembers.new.getElem?_tags (wordsOf js) i
  · rintro earlier j later rfl n
    have hearlier : ∀ k ∈ earlier, k.Fits := fun k hk => h k (List.mem_append_left _ hk)
    have hj : j.Fits := h j (List.mem_append_right _ List.mem_cons_self)
    obtain ⟨es, hes, -, -⟩ := pages_eq hearlier .new
    obtain ⟨tally, p, hsteps, hp⟩ :=
      steps_remembers (Dictionary.Remembers.new.seeAll (wordsOf earlier)) hj n
    exact ⟨es, _, tally, p, hes, hsteps, hp, hp.get_ne_zero⟩

/-- Two pages of which the second repeats the first. -/
theorem pages_history_repeated :
    let j : Job := ((List.range 1024).map UInt32.ofNat, List.replicate 1024 0)
    ∃ fs d, FollowsHistory [j, j] fs d := by
  have hj : Job.Fits ((List.range 1024).map UInt32.ofNat, List.replicate 1024 0) := by
    constructor
    · rw [List.length_map, List.length_range, Layout.pageWords_eq]
    · exact Nat.le_of_eq List.length_replicate.symm
  exact pages_history _ (List.forall_mem_cons.2 ⟨hj, List.forall_mem_singleton.2 hj⟩)

end Scan

end PageCodec
