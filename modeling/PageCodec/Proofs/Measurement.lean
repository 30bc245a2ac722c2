import Mathlib.Algebra.Order.BigOperators.Group.List
import PageCodec.Proofs.Accumulation
import PageCodec.Proofs.Lengths
import PageCodec.Proofs.Pages
import PageCodec.Proofs.Places
import PageCodec.Proofs.Reuse
import PageCodec.Proofs.Rows
import PageCodec.Proofs.Timing

/-!
# What a measurement adds up

All pages of an input are compressed into one buffer and stamped there, and what a page comes to is
read back from it.  Yet nothing of one page shows in the next: the totals are sums over what each
page comes to on its own, in a fresh buffer, and each line is about its page alone.

* `Pager.Yields` — the pages that a pager answers with within a limit, and the failure behind them
  if there is one.
* `Measure.Progress.TakenIn` — a measurement that has taken in some pages; it takes in one more
  (`Measure.takeIn_ok`), and so it takes in all that are drawn (`Measure.pages_of_yields`).
* `Measure.measured` — what comes of a measurement under a clock.
* `Measure.EncodesAlone`, `Measure.ShowsPage` — what a page comes to on its own, and a line that
  shows it.
* `Measure.SumsPages` — a measurement that adds up its pages.
* `Measure.measure_sums` — every measurement does.
-/

namespace PageCodec

/-! ## The pages within a limit -/

namespace Pager

/-- The answers that come to pages with a failure behind them, or with nothing behind them. -/
def drawn (pages : List (List Word)) (failure : Option InputFailure) :
    List (Except InputFailure (List Word)) :=
  pages.map .ok ++ (failure.map .error).toList

/-- The pages that a pager answers with within a limit, and the failure behind them if one is met
within the limit. -/
structure Yields (p : Pager) (limit : Nat) (pages : List (List Word))
    (failure : Option InputFailure) : Prop where
  /-- These are the answers of the calls up to the limit, and nothing is answered behind them. -/
  answers : ∀ n < limit, p.answer n = (drawn pages failure)[n]?
  /-- There are no more of them than the limit allows. -/
  within : (drawn pages failure).length ≤ limit

/-- What comes first of pages and a failure comes to pages and a failure again. -/
theorem exists_take_drawn (pages : List (List Word)) (failure : Option InputFailure) (n : Nat) :
    ∃ pages' failure', (drawn pages failure).take n = drawn pages' failure' := by
  rcases Nat.lt_or_ge pages.length n with h | h
  · refine ⟨pages, failure, List.take_of_length_le ?_⟩
    cases failure <;> simp [drawn] <;> omega
  · refine ⟨pages.take n, none, ?_⟩
    rw [drawn, List.take_append_of_le_length (by rwa [List.length_map]), ← List.map_take]
    exact (List.append_nil _).symm

theorem answers_eq_drawn (d : Delivery) : ∃ failure, d.answers = drawn d.pages failure := by
  unfold Delivery.answers drawn
  cases d.ending with
  | endOfInput => exact ⟨none, rfl⟩
  | failure reason => exact ⟨some reason, rfl⟩

variable {p : Pager} {d : Delivery} {limit : Nat} {pages : List (List Word)}
  {failure : Option InputFailure}

theorem Ahead.exists_yields (hp : p.Ahead d) (limit : Nat) :
    ∃ pages failure, p.Yields limit pages failure := by
  obtain ⟨last, hanswers⟩ := answers_eq_drawn d
  obtain ⟨pages, failure, htake⟩ := exists_take_drawn d.pages last limit
  refine ⟨pages, failure, ?_, ?_⟩
  · intro n hn
    rw [hp.answer_eq, hanswers, ← htake, List.getElem?_take_of_lt hn]
  · rw [← htake]
    exact List.length_take_le ..

/-- Pages that are yielded have the length of a page. -/
theorem Ahead.length_of_yields (hp : p.Ahead d) (h : p.Yields limit pages failure) :
    ∀ page ∈ pages, page.length = Layout.pageWords := by
  intro page hpage
  obtain ⟨last, hanswers⟩ := answers_eq_drawn d
  obtain ⟨i, hi, rfl⟩ := List.mem_iff_getElem.1 hpage
  have hdrawn : (drawn pages failure)[i]? = some (.ok pages[i]) := by
    rw [drawn, List.getElem?_append_left (by rwa [List.length_map]), List.getElem?_map,
      List.getElem?_eq_getElem hi]
    rfl
  have hlimit : i < limit := by
    refine Nat.lt_of_lt_of_le ?_ h.within
    rw [drawn, List.length_append, List.length_map]
    exact Nat.lt_of_lt_of_le hi (Nat.le_add_right ..)
  rw [← h.answers i hlimit, hp.answer_eq, hanswers] at hdrawn
  rcases List.mem_append.1 (List.mem_of_getElem? hdrawn) with hmem | hmem
  · obtain ⟨_, hcut, ⟨⟩⟩ := List.mem_map.1 hmem
    exact length_of_mem_cut hcut
  · cases last <;> simp at hmem

/-! ## Drawing one page after another -/

/-- Where no page is left within the limit, drawing stops. -/
theorem Yields.next_of_nil {n : Nat} (h : p.Yields (n + 1) [] none) :
    p.next.1 = none := h.answers 0 (Nat.succ_pos n)

theorem Yields.next_of_failure {reason : InputFailure} (h : p.Yields limit [] (some reason)) :
    ∃ n, limit = n + 1 ∧ p.next.1 = some (.error reason) := by
  obtain ⟨n, rfl⟩ : ∃ n, limit = n + 1 := Nat.exists_eq_add_of_le' h.within
  exact ⟨n, rfl, h.answers 0 (Nat.succ_pos n)⟩

/-- Where there is a page within the limit, it is drawn, and one less is left. -/
theorem Yields.next_of_cons {words : List Word} (h : p.Yields limit (words :: pages) failure) :
    ∃ n, limit = n + 1 ∧ p.next.1 = some (.ok words) ∧ p.next.2.Yields n pages failure := by
  have hwithin := h.within
  obtain ⟨n, rfl⟩ : ∃ n, limit = n + 1 :=
    Nat.exists_eq_add_of_le' (Nat.le_trans (Nat.succ_pos _) hwithin)
  refine ⟨n, rfl, h.answers 0 (Nat.succ_pos n), fun m hm => ?_, Nat.le_of_succ_le_succ hwithin⟩
  exact h.answers (m + 1) (Nat.succ_lt_succ hm)

/-- There are no more pages behind the end or a failure. -/
theorem finished_of_next {p : Pager} (h : ∀ words, p.next.1 ≠ some (.ok words)) :
    p.next.2.finished = true := by
  revert h
  unfold next
  split
  · exact fun _ => ‹_›
  · split
    · exact fun _ => rfl
    · split
      · exact fun _ => rfl
      · exact fun h => absurd rfl (h _)

end Pager

namespace Totals

/-- The totals of pages that come to these on their own, with the time that they took. -/
def ofPages (name : String) (es : List Encoded) (elapsed : Duration) : Totals where
  name := name
  pages := es.length
  compressedWords := (es.map Encoded.length).sum
  tally := .sum (es.map Encoded.tally)
  elapsed := elapsed

/-- A page whose time fits is taken in. -/
theorem addPage_ofPages (name : String) (es : List Encoded) (e : Encoded)
    {elapsed lap sum : Duration} (h : elapsed.add? lap = some sum) :
    addPage e.length e.tally lap (ofPages name es elapsed)
      = .ok () (ofPages name (es ++ [e]) sum) := by
  simp [addPage, ofPages, countPage, Tally.sum_concat, h]

end Totals

namespace Measure

/-! ## One page of a measurement -/

namespace Emission

/-- The line that is let out, if it is one. -/
def line? : Emission → Option String
  | .line text => some text
  | .note _ => none

/-- The lines among what is let out, in order. -/
def lines (es : List Emission) : List String := es.filterMap line?

/-- The lines that are let out come behind those that were let out before. -/
theorem lines_emit (emitted : Array Emission) (es : List Emission) :
    lines (emitted ++ es).toList = lines emitted.toList ++ lines es := by
  simp [lines, List.filterMap_append]

theorem lines_notes (ns : List Note) : lines (ns.map .note) = [] := by
  simp [lines, line?]

theorem lines_lines (texts : List String) : lines (texts.map .line) = texts := by
  rw [lines, List.filterMap_map]
  exact List.filterMap_some

end Emission

namespace Progress

variable {α : Type} {a : α} {pager : Pager} {totals t : Totals} {buffer b : Buffer}
  {emitted : Array Emission}

/-- The lines that were let out so far. -/
def lines (p : Progress) : List String := Emission.lines p.emitted.toList

theorem onBuffer_ok {act : EStateM Stop Buffer α} (h : act buffer = .ok a b) :
    onBuffer act ⟨pager, totals, buffer, emitted⟩ = .ok a ⟨pager, totals, b, emitted⟩ := by
  rw [onBuffer, h]

theorem onBuffer_const : onBuffer (fun _ => .ok a b) ⟨pager, totals, buffer, emitted⟩
    = .ok a ⟨pager, totals, b, emitted⟩ := rfl

theorem onTotals_ok {act : EStateM Stop Totals α} (h : act totals = .ok a t) :
    onTotals act ⟨pager, totals, buffer, emitted⟩ = .ok a ⟨pager, t, buffer, emitted⟩ := by
  rw [onTotals, h]

theorem emit_eq (es : List Emission) : emit es ⟨pager, totals, buffer, emitted⟩
    = .ok () ⟨pager, totals, buffer, emitted ++ es⟩ := rfl

/-- What is drawn is what the pager answers with. -/
theorem draw_eq (p : Progress) : draw p = match p.pager.next.1 with
    | none => .ok none { p with pager := p.pager.next.2 }
    | some (.ok words) => .ok (some words) { p with pager := p.pager.next.2 }
    | some (.error reason) => .error (.input reason) { p with pager := p.pager.next.2 } := by
  unfold draw
  rcases p.pager.next with ⟨_ | _ | _, pager⟩ <;> rfl

end Progress

/-- Stamps the buffer if there is an identifier to stamp. -/
def stampWith : Option Word → EStateM Stop Buffer Unit
  | some id => stamp id
  | none => pure ()

/-- The line about a page, if lines are asked for. -/
def lineOf (settings : Settings) (index : Nat) (h : Header) (t : Tally) : List String :=
  if settings.perPage then [pageLine index h t] else []

/-- What is done for a page that has been compressed, one thing after another. -/
theorem takeIn_eq (settings : Settings) (compressed : EStateM.Result Stop Buffer Encoded)
    (elapsed : Duration) : takeIn settings compressed elapsed = (do
      let index := (← get).totals.pages
      let encoded ← Progress.onBuffer fun _ => compressed
      Progress.emit ((Note.ofEncoded encoded).map .note)
      Progress.onBuffer (stampWith settings.algorithmId)
      let header ← Progress.onBuffer readHeader
      Progress.emit [.note (.pageHeader index header)]
      Progress.emit ((lineOf settings index header encoded.tally).map .line)
      Progress.onTotals (Totals.addPage header.compressedLength encoded.tally elapsed)) := by
  obtain ⟨perPage, algorithmId, limit⟩ := settings
  cases perPage <;> cases algorithmId <;> rfl

theorem stampWith_eq (algorithm : Word) (rest : Buffer) (id : Option Word) :
    stampWith id (algorithm :: rest) = .ok () (id.getD algorithm :: rest) := by
  cases id <;> rfl

/-- What a page comes to. -/
def encodedOf (words : List Word) : Encoded := (Encoder.trace words).encoded

/-- The header that a page has in a measurement. -/
def headerOf (settings : Settings) (words : List Word) : Header :=
  (Encoder.trace words).header (settings.algorithmId.getD 0)

/-- The lines about the pages of an input, if lines are asked for. -/
def pageLines (settings : Settings) (ps : List (List Word)) : List String :=
  if settings.perPage then
    ps.mapIdx fun i words => pageLine i (headerOf settings words) (encodedOf words).tally
  else []

theorem pageLines_concat (settings : Settings) (ps : List (List Word)) (words : List Word) :
    pageLines settings (ps ++ [words]) = pageLines settings ps
      ++ lineOf settings ps.length (headerOf settings words) (encodedOf words).tally := by
  unfold pageLines lineOf
  split
  · exact List.mapIdx_concat
  · rfl

/-- A measurement that has taken in these pages and can go on. -/
structure Progress.TakenIn (settings : Settings) (name : String) (ps : List (List Word))
    (elapsed : Duration) (p : Progress) : Prop where
  /-- The totals are the sums over what the pages come to. -/
  totals : p.totals = .ofPages name (ps.map encodedOf) elapsed
  /-- The lines about the pages have been let out. -/
  lines : p.lines = pageLines settings ps
  /-- The buffer has room for every page, and the identifier that the next page will have is
  settled, since a buffer that is not stamped has still its first one. -/
  ready : ∃ algorithm rest, p.buffer = algorithm :: rest
    ∧ Layout.maxWords ≤ (algorithm :: rest).length
    ∧ settings.algorithmId.getD algorithm = settings.algorithmId.getD 0

section

variable {settings : Settings} {name : String} {ps : List (List Word)} {p : Progress}

/-- To draw a page makes no difference to what has been taken in. -/
theorem Progress.TakenIn.draw {elapsed : Duration} (h : p.TakenIn settings name ps elapsed)
    (pager : Pager) : { p with pager }.TakenIn settings name ps elapsed :=
  ⟨h.totals, h.lines, h.ready⟩

/-- One more page is compressed, stamped, shown and counted, if its time fits. -/
theorem takeIn_ok {words : List Word} {elapsed lap sum : Duration}
    (hw : words.length = Layout.pageWords) (hp : p.TakenIn settings name ps elapsed)
    (hsum : elapsed.add? lap = some sum) :
    ∃ p', takeIn settings (Encoder.encode words p.buffer) lap p = .ok () p'
      ∧ p'.TakenIn settings name (ps ++ [words]) sum ∧ p'.pager = p.pager := by
  obtain ⟨pager, totals, buffer, emitted⟩ := p
  obtain ⟨htotals, hlines, algorithm, rest, hbuffer, hroom, hid⟩ := hp
  dsimp only at htotals hbuffer
  subst htotals hbuffer
  have hlength : (headerOf settings words).compressedLength = (encodedOf words).length :=
    Trace.compressedLength_header (Encoder.length_trace hw) _
  have hencode : Encoder.encode words (algorithm :: rest) = .ok (encodedOf words) _ :=
    Encoder.encode_eq hw hroom
  have hstamp : ∀ behind, stampWith settings.algorithmId
      (algorithm :: (Encoder.trace words).image ++ behind)
      = .ok () (settings.algorithmId.getD algorithm :: (Encoder.trace words).image ++ behind) :=
    fun behind => stampWith_eq algorithm _ _
  have hread : ∀ behind, readHeader (settings.algorithmId.getD algorithm
      :: (Encoder.trace words).image ++ behind)
      = .ok (headerOf settings words) (settings.algorithmId.getD algorithm
        :: (Encoder.trace words).image ++ behind) := by
    intro behind
    rw [readHeader, Trace.read_image, headerOf, hid]
  dsimp only
  rw [hencode, takeIn_eq, bind_get, bind_ok Progress.onBuffer_const,
    bind_ok (Progress.emit_eq _), bind_ok (Progress.onBuffer_ok (hstamp _)),
    bind_ok (Progress.onBuffer_ok (hread _)), bind_ok (Progress.emit_eq _),
    bind_ok (Progress.emit_eq _), hlength,
    Progress.onTotals_ok (Totals.addPage_ofPages name _ _ hsum)]
  refine ⟨_, rfl, ⟨?_, ?_, _,
    (Encoder.trace words).image ++ rest.drop (Encoder.trace words).image.length, rfl, ?_, ?_⟩, rfl⟩
  · rw [List.map_append]
    rfl
  · rw [Progress.lines] at hlines
    rw [Progress.lines, Emission.lines_emit, Emission.lines_emit, Emission.lines_emit,
      Emission.lines_notes, Emission.lines_lines, List.append_nil, hlines, pageLines_concat]
    simp [Emission.lines, Emission.line?, Totals.ofPages]
  · simp only [List.length_cons, List.length_append, List.length_drop] at hroom ⊢
    omega
  · -- the identifier in the buffer is the stamped one from now on
    cases h : settings.algorithmId with
    | none => rwa [h] at hid
    | some id => rfl

theorem fresh_maxWords : Encoder.fresh Layout.maxWords = 0 :: Encoder.fresh 1561 := by
  rw [Layout.maxWords_eq]
  exact List.replicate_succ

theorem takenIn_start (settings : Settings) (name : String) (source : Source) :
    (Progress.start name source).TakenIn settings name [] .zero := by
  refine ⟨rfl, ?_, 0, Encoder.fresh 1561, fresh_maxWords, ?_, rfl⟩
  · unfold pageLines
    split <;> rfl
  · rw [← fresh_maxWords, Encoder.length_fresh]

/-! ## All pages of a measurement -/

/-- How a measurement stands after its pages: it is done, or it ends with the failure behind
them. -/
def stand (failure : Option InputFailure) (p : Progress) :
    EStateM.Result Failure Progress Unit :=
  match failure with
  | none => .ok () p
  | some reason => .error (.input reason) p

variable {σ : Type} (w : Watcher σ) (clock : Clock)

/-- Where no page is left, the loop ends at the limit, at the end of the input or at a failure. -/
theorem run_pages_nil {limit : Nat} {failure : Option InputFailure}
    (h : p.pager.Yields limit [] failure) (s : σ) :
    (pages (w.stopwatch clock) settings limit p).run s
      = (stand failure { p with pager := p.pager.advance limit }, s) := by
  have hadvance : ∀ n, (∀ words, p.pager.next.1 ≠ some (.ok words)) →
      p.pager.advance (n + 1) = p.pager.next.2 :=
    fun n hnext => Pager.advance_of_finished (Pager.finished_of_next hnext) n
  cases failure with
  | some reason =>
    obtain ⟨n, rfl, hnext⟩ := h.next_of_failure
    rw [pages, Progress.draw_eq, hnext, hadvance n (by simp [hnext])]
    rfl
  | none =>
    rcases limit with _ | n
    · rfl
    · have hnext := h.next_of_nil
      rw [pages, Progress.draw_eq, hnext, hadvance n (by simp [hnext])]
      rfl

/-- A page that is drawn and taken in takes two readings of the clock, and the loop goes on. -/
theorem run_pages_cons {n : Nat} {words : List Word} {p' : Progress} {s : σ}
    (hnext : p.pager.next.1 = some (.ok words))
    (htake : takeIn settings (Encoder.encode words p.buffer) (clock.lap (w.readings s))
      { p with pager := p.pager.next.2 } = .ok () p') :
    (pages (w.stopwatch clock) settings (n + 1) p).run s
      = (pages (w.stopwatch clock) settings n p').run (w.reads 2 s) := by
  rw [pages, Progress.draw_eq, hnext]
  dsimp only
  rw [run_bind, w.run_timed]
  dsimp only
  rw [htake]

/-- Pages are drawn and taken in one after another.  The induction is on the pages that are still to
be drawn, and the readings of the clock say how many have been taken in. -/
theorem pages_of_yields {limit : Nat} {failure : Option InputFailure}
    {todo : List (List Word)} (h : p.pager.Yields limit todo failure)
    (htodo : ∀ words ∈ todo, words.length = Layout.pageWords) {k : Nat} {s : σ}
    (hs : w.readings s = k + 2 * ps.length)
    (hp : p.TakenIn settings name ps (clock.taken k ps.length)) :
    ∃ p', (pages (w.stopwatch clock) settings limit p).run s
        = (stand failure p', w.reads (2 * todo.length) s)
      ∧ p'.TakenIn settings name (ps ++ todo) (clock.taken k (ps ++ todo).length)
      ∧ p'.pager = p.pager.advance limit := by
  induction todo generalizing limit ps p s with
  | nil =>
    rw [List.append_nil]
    exact ⟨_, run_pages_nil w clock h s, hp.draw _, rfl⟩
  | cons words todo ih =>
    obtain ⟨n, rfl, hnext, hrest⟩ := h.next_of_cons
    obtain ⟨hw, htodo⟩ := List.forall_mem_cons.1 htodo
    have hlength : (ps ++ [words]).length = ps.length + 1 := List.length_append
    obtain ⟨p₁, htake, hp₁, hpager⟩ :=
      takeIn_ok hw (hp.draw p.pager.next.2) (clock.add?_taken k ps.length)
    rw [← hs] at htake
    rw [← hlength] at hp₁
    have hs₁ : w.readings (w.reads 2 s) = k + 2 * (ps ++ [words]).length := by
      rw [w.readings_reads, hs, hlength, Nat.mul_succ, Nat.add_assoc]
    rw [show p.pager.next.2 = p₁.pager from hpager.symm] at hrest
    obtain ⟨p₂, hrun, hp₂, hpager₂⟩ := ih hrest htodo hs₁ hp₁
    rw [List.append_assoc, List.singleton_append] at hp₂
    refine ⟨p₂, (run_pages_cons w clock hnext htake).trans hrun, hp₂, ?_⟩
    rw [hpager₂, hpager]
    rfl

end

/-! ## The whole measurement -/

/-- What there is without a failure, or the failure. -/
def orFailure {α : Type} (failure : Option InputFailure) (a : α) : Except Failure α :=
  match failure with
  | none => .ok a
  | some reason => .error (.input reason)

section

variable {settings : Settings} {source : Source} {ps : List (List Word)}
  {failure : Option InputFailure} {σ : Type} (w : Watcher σ) (clock : Clock)

/-- A measurement ends with the totals of all pages, or with the failure behind them, and the lines
about the pages have been let out in any case.  It reads the clock twice for each page, and draws
from its source no more often than its limit allows. -/
theorem measure_of_yields (name : String) (s : σ)
    (h : (Pager.ofSource source).Yields (settings.limit.getD noLimit) ps failure) :
    ∃ m, (measure (w.stopwatch clock) name settings source).run s
        = (m, w.reads (2 * ps.length) s)
      ∧ m.result = orFailure failure
        (.ofPages name (ps.map encodedOf) (clock.taken (w.readings s) ps.length))
      ∧ Emission.lines m.emitted = pageLines settings ps
      ∧ m.source = ((Pager.ofSource source).advance (settings.limit.getD noLimit)).source := by
  have hahead : (Pager.ofSource source).Ahead (.ofEvents source.events) := ⟨rfl, rfl⟩
  have hstart := takenIn_start settings name source
  rw [← clock.taken_zero (w.readings s)] at hstart
  obtain ⟨p, hrun, hp, hpager⟩ :=
    pages_of_yields w clock h (hahead.length_of_yields h) rfl hstart
  have hlines : Emission.lines p.emitted.toList = pageLines settings ps := hp.lines
  have htotals := hp.totals
  rw [List.nil_append] at htotals
  rw [measure, run_bind, hrun]
  cases failure with
  | none =>
    refine ⟨_, rfl, congrArg Except.ok htotals, ?_, congrArg Pager.source hpager⟩
    rw [← hlines]
    dsimp only
    split <;> simp [Emission.lines, Emission.line?, List.filterMap_append]
  | some reason => exact ⟨_, rfl, rfl, hlines, congrArg Pager.source hpager⟩

/-- What comes of measuring an input, on a machine that does nothing but read a clock. -/
def measured (clock : Clock) (name : String) (settings : Settings) (source : Source) : Measured :=
  ((measure (Watcher.counter.stopwatch clock) name settings source).run 0).1

variable {clock}

theorem measured_of_yields (name : String)
    (h : (Pager.ofSource source).Yields (settings.limit.getD noLimit) ps failure) :
    (measured clock name settings source).result = orFailure failure
        (.ofPages name (ps.map encodedOf) (clock.taken 0 ps.length))
      ∧ Emission.lines (measured clock name settings source).emitted = pageLines settings ps := by
  obtain ⟨m, hrun, hresult, hlines, -⟩ := measure_of_yields Watcher.counter clock name 0 h
  rw [measured, hrun]
  exact ⟨hresult, hlines⟩

/-- A measurement leaves its input as so many calls leave it as pages are asked for. -/
theorem measured_source (name : String) (settings : Settings) (source : Source) :
    (measured clock name settings source).source
      = ((Pager.ofSource source).advance (settings.limit.getD noLimit)).source := by
  have hahead : (Pager.ofSource source).Ahead (.ofEvents source.events) := ⟨rfl, rfl⟩
  obtain ⟨ps, failure, hyields⟩ := hahead.exists_yields (settings.limit.getD noLimit)
  obtain ⟨m, hrun, -, -, hsource⟩ := measure_of_yields Watcher.counter clock name 0 hyields
  rw [measured, hrun]
  exact hsource

end

/-! ## What the lines and the totals show -/

/-- What a page comes to on its own: the answer to compressing it into a fresh buffer. -/
def EncodesAlone (words : List Word) (e : Encoded) : Prop :=
  Encoder.outcome words (Encoder.fresh Layout.maxWords) = .ok e

/-- A line that shows a page on its own.  The header is the one that compressing the page leaves in
a fresh buffer, and the identifier shown with it is 0 if there is none to stamp. -/
structure ShowsPage (settings : Settings) (index : Nat) (words : List Word) (line : String)
    (e : Encoded) (h : Header) : Prop where
  /-- This is what the page comes to. -/
  alone : EncodesAlone words e
  /-- This is its header. -/
  header : Header.read (Encoder.leave words (Encoder.fresh Layout.maxWords)) = .ok h
  /-- The header has the length of the page. -/
  length : h.compressedLength = e.length
  /-- The header has the number of its full words. -/
  fullWords : h.fullWordCount = e.tally.miss
  /-- This is the line. -/
  text : line = pageLine index { h with algorithm := settings.algorithmId.getD 0 } e.tally
  /-- These are the numbers that can be read off the line. -/
  row : Row.read? line
    = some ⟨index, (settings.algorithmId.getD 0).toNat, e.length, e.tally.miss, e.tally⟩

/-- A line about a page. -/
def LineAbout (settings : Settings) (index : Nat) (words : List Word) (line : String) : Prop :=
  ∃ e h, ShowsPage settings index words line e h

theorem encodesAlone_encodedOf {words : List Word} (hw : words.length = Layout.pageWords) :
    EncodesAlone words (encodedOf words) := by
  unfold EncodesAlone
  rw [Encoder.outcome_eq, if_neg (not_not.2 hw), Encoder.length_fresh, if_neg (Nat.lt_irrefl _)]
  rfl

theorem lineAbout_headerOf {words : List Word} (hw : words.length = Layout.pageWords)
    (settings : Settings) (index : Nat) : LineAbout settings index words
      (pageLine index (headerOf settings words) (encodedOf words).tally) := by
  have hwords := Encoder.length_trace hw
  have hlength : ((Encoder.trace words).header 0).compressedLength = (encodedOf words).length :=
    Trace.compressedLength_header hwords 0
  have hfull : ((Encoder.trace words).header 0).fullWordCount = (encodedOf words).tally.miss :=
    Trace.fullWordCount_header hwords 0
  have hroom : Layout.maxWords ≤ (0 :: Encoder.fresh 1561).length := by
    rw [← fresh_maxWords, Encoder.length_fresh]
  refine ⟨_, (Encoder.trace words).header 0, encodesAlone_encodedOf hw, ?_, hlength, hfull, rfl, ?_⟩
  · rw [Encoder.leave, fresh_maxWords, Encoder.encode_eq hw hroom]
    exact Trace.read_image ..
  · rw [read?_pageLine, ← hlength, ← hfull]
    rfl

/-- A measurement that adds up its pages: those that are read within its limit, up to a failure if
there is one, with what each of them comes to on its own. -/
structure SumsPages (clock : Clock) (name : String) (settings : Settings) (source : Source)
    (ps : List (List Word)) (failure : Option InputFailure) (es : List Encoded) : Prop where
  /-- These are the pages of the input, and the failure behind them. -/
  yields : (Pager.ofSource source).Yields (settings.limit.getD noLimit) ps failure
  /-- This is what the pages come to. -/
  alone : List.Forall₂ EncodesAlone ps es
  /-- Without a failure the measurement ends with the totals. -/
  completes : failure = none → (measured clock name settings source).result
    = .ok (.ofPages name es (clock.taken 0 ps.length))
  /-- A failure ends the measurement as it is. -/
  fails : ∀ reason, failure = some reason →
    (measured clock name settings source).result = .error (.input reason)
  /-- The pages are counted. -/
  pages : (Totals.ofPages name es (clock.taken 0 ps.length)).pages = ps.length
  /-- Every word of the input has a tag. -/
  total : (Totals.ofPages name es (clock.taken 0 ps.length)).tally.total
    = (Totals.ofPages name es (clock.taken 0 ps.length)).inputWords
  /-- The input is as long as its pages. -/
  inputWords : (Totals.ofPages name es (clock.taken 0 ps.length)).inputWords = 1024 * ps.length
  /-- No page is shorter than a page of zeros. -/
  least : 68 * ps.length ≤ (Totals.ofPages name es (clock.taken 0 ps.length)).compressedWords
  /-- No page is longer than the longest. -/
  greatest : (Totals.ofPages name es (clock.taken 0 ps.length)).compressedWords ≤ 1093 * ps.length
  /-- Where lines are asked for, there is one for each page, in order, whether or not a failure
  comes behind them. -/
  shown : settings.perPage = true →
    (Emission.lines (measured clock name settings source).emitted).length = ps.length
      ∧ ∀ i words, ps[i]? = some words → ∃ line,
        (Emission.lines (measured clock name settings source).emitted)[i]? = some line
          ∧ LineAbout settings i words line
  /-- Where lines are not asked for, there are none. -/
  quiet : settings.perPage = false →
    Emission.lines (measured clock name settings source).emitted = []
  /-- Neither the settings nor the order of the pages nor the clock make a difference. -/
  independent : ∀ clock' name' (settings' : Settings) source' ps', failure = none →
    (Pager.ofSource source').Yields (settings'.limit.getD noLimit) ps' none →
    ps.Perm ps' → ∃ t t', (measured clock name settings source).result = .ok t
      ∧ (measured clock' name' settings' source').result = .ok t' ∧ t'.pages = t.pages
      ∧ t'.compressedWords = t.compressedWords ∧ t'.tally = t.tally

section

variable {ps : List (List Word)} (h : ∀ words ∈ ps, words.length = Layout.pageWords)

include h

theorem total_tally_encodedOf {e : Encoded} (he : e ∈ ps.map encodedOf) : e.tally.total = 1024 := by
  obtain ⟨words, hwords, rfl⟩ := List.mem_map.1 he
  exact Trace.total_tally (Encoder.length_trace (h words hwords))

theorem total_ofPages (name : String) (elapsed : Duration) :
    (Totals.ofPages name (ps.map encodedOf) elapsed).tally.total
      = (Totals.ofPages name (ps.map encodedOf) elapsed).inputWords := by
  have hall : ∀ c ∈ (ps.map encodedOf).map Encoded.tally, c.total = 1024 := by
    intro c hc
    obtain ⟨e, he, rfl⟩ := List.mem_map.1 hc
    exact total_tally_encodedOf h he
  rw [Totals.ofPages, Tally.total_sum hall, List.length_map, Nat.mul_comm]
  rfl

/-- The sum lies between the bounds for one page, as often as there are pages. -/
theorem compressedWords_ofPages (name : String) (elapsed : Duration) :
    68 * ps.length ≤ (Totals.ofPages name (ps.map encodedOf) elapsed).compressedWords
      ∧ (Totals.ofPages name (ps.map encodedOf) elapsed).compressedWords ≤ 1093 * ps.length := by
  have hpage : ∀ n ∈ (ps.map encodedOf).map Encoded.length, 68 ≤ n ∧ n ≤ 1093 := by
    intro n hn
    obtain ⟨e, he, rfl⟩ := List.mem_map.1 hn
    obtain ⟨words, -, rfl⟩ := List.mem_map.1 he
    rw [encodedOf, Trace.length_encoded_eq]
    exact ⟨Tally.le_compressedLength _, Tally.compressedLength_le (total_tally_encodedOf h he)⟩
  have hleast := List.card_nsmul_le_sum _ 68 (fun n hn => (hpage n hn).1)
  have hgreatest := List.sum_le_card_nsmul _ 1093 fun n hn => (hpage n hn).2
  simp only [List.length_map, smul_eq_mul] at hleast hgreatest
  rw [Nat.mul_comm 68, Nat.mul_comm 1093]
  exact ⟨hleast, hgreatest⟩

end

/-- The sums over the same pages in another order are the same. -/
theorem ofPages_perm {name name' : String} {es es' : List Encoded} (h : es.Perm es')
    (elapsed elapsed' : Duration) :
    (Totals.ofPages name' es' elapsed').pages = (Totals.ofPages name es elapsed).pages
      ∧ (Totals.ofPages name' es' elapsed').compressedWords
        = (Totals.ofPages name es elapsed).compressedWords
      ∧ (Totals.ofPages name' es' elapsed').tally = (Totals.ofPages name es elapsed).tally :=
  ⟨h.length_eq.symm, (h.map _).sum_eq.symm, (Tally.sum_perm (h.map _)).symm⟩

/-- **Measurements add up.**  The pages that an input yields within the limit are compressed into
one buffer, each on top of the last and with its identifier stamped over, and still a measurement
comes to the sums over what its pages come to on their own.  It ends with a failure only if that is
read from the input within the limit, and the lines about the pages before it have been let out
then. -/
theorem measure_sums (clock : Clock) (name : String) (settings : Settings) (source : Source) :
    ∃ ps failure es, SumsPages clock name settings source ps failure es := by
  have hahead : (Pager.ofSource source).Ahead (.ofEvents source.events) := ⟨rfl, rfl⟩
  obtain ⟨ps, failure, hyields⟩ := hahead.exists_yields (settings.limit.getD noLimit)
  have hps := hahead.length_of_yields hyields
  obtain ⟨hresult, hlines⟩ := measured_of_yields name hyields
  obtain ⟨hleast, hgreatest⟩ := compressedWords_ofPages hps name (clock.taken 0 ps.length)
  refine ⟨ps, failure, ps.map encodedOf, hyields, ?_, ?_, ?_, ?_, total_ofPages hps name _, ?_,
    hleast, hgreatest, ?_, ?_, ?_⟩
  · rw [List.forall₂_map_right_iff, List.forall₂_same]
    exact fun words hwords => encodesAlone_encodedOf (hps words hwords)
  · rintro rfl
    exact hresult
  · rintro reason rfl
    exact hresult
  · exact List.length_map ..
  · rw [Totals.inputWords, Totals.ofPages, List.length_map, Nat.mul_comm, Layout.pageWords_eq]
  · intro hper
    rw [hlines, pageLines, if_pos hper]
    refine ⟨List.length_mapIdx, ?_⟩
    intro i words hi
    rw [List.getElem?_mapIdx, hi]
    exact ⟨_, rfl, lineAbout_headerOf (hps words (List.mem_of_getElem? hi)) settings i⟩
  · intro hper
    rw [hlines, pageLines, if_neg (Bool.not_eq_true _ ▸ hper)]
  · rintro clock' name' settings' source' ps' rfl hyields' hperm
    exact ⟨_, _, hresult, (measured_of_yields name' hyields').1,
      ofPages_perm (hperm.map encodedOf) _ _⟩

end Measure

end PageCodec
