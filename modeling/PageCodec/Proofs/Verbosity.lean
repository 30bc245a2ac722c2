import Mathlib.Data.List.Basic
import PageCodec.Proofs.Arguments

/-!
# Requests to say more

Requests to say more are counted wherever they stand among the arguments, alone or in clusters of
one-letter options, and whatever else the arguments say does not change with them.  The count is
held in a byte.  A run is given the level that its requests ask for as long as the byte can hold
their number; 256 of them count as none.

* `Level.requested` — the level that a number of requests asks for.
* `CommandLine.flags` — number of requests in a list of arguments.
* `CommandLine.Flagged` — a list of arguments with requests put into it.
* `CommandLine.Parser.Rules.options_flagged` — what the arguments ask for then.
* `CommandLine.level_requested` — the level of a run and the number of its requests.
-/

namespace PageCodec

namespace Level

/-- The level that a number of requests to say more asks for. -/
def requested : Nat → Level
  | 0 => warn
  | 1 => info
  | 2 => debug
  | _ => trace

theorem ofVerbosity_ofNat (n : Nat) : ofVerbosity (UInt8.ofNat n) = requested (n % 256) := by
  rw [ofVerbosity, UInt8.toNat_ofNat']
  rfl

theorem rank_requested (n : Nat) : (requested n).rank = min n 3 := by
  match n with
  | 0 | 1 | 2 => rfl
  | n + 3 => exact (Nat.min_eq_right (Nat.le_add_left 3 n)).symm

theorem rank_injective {l l' : Level} (h : l.rank = l'.rank) : l = l' := by
  cases l <;> cases l' <;> first | rfl | cases h

/-- A number that is cut down to a byte asks for the same level as before, unless what is left of it
is too small. -/
theorem requested_mod_eq_iff (n : Nat) :
    requested (n % 256) = requested n ↔ n < 3 ∨ 3 ≤ n % 256 := by
  have hrank : requested (n % 256) = requested n
      ↔ (requested (n % 256)).rank = (requested n).rank :=
    ⟨congrArg rank, rank_injective⟩
  rw [hrank, rank_requested, rank_requested]
  omega

end Level

namespace CommandLine

/-! ## Counting requests -/

/-- Number of requests to say more in a list of arguments, of which those behind `--` are files. -/
def flags : List String → Nat
  | [] => 0
  | arg :: args => if arg = "--" then 0 else flagsIn arg + flags args

theorem count_unmet (waiting : Option ValueOption) : (unmet waiting).count .verbose = 0 := by
  cases waiting <;> rfl

/-- All requests are read, and nothing else is taken for one. -/
theorem Parser.Rules.count_eq {p : Parser} (hp : p.Rules) {waiting last : Option ValueOption}
    {args : List String} {items : List Item} (h : p.split waiting args = .ok (items, last)) :
    items.count .verbose = flags args := by
  induction args generalizing waiting items with
  | nil =>
    rw [hp.done] at h
    cases h
    exact count_unmet _
  | cons arg args ih =>
    by_cases hsep : arg = "--"
    · subst hsep
      rw [hp.separator] at h
      cases h
      have hfiles : (args.map Item.file).count .verbose = 0 := by
        simp [List.count_eq_zero]
      rw [List.count_append, count_unmet, hfiles, flags, if_pos rfl]
    · rw [flags, if_neg hsep]
      cases hoption : isOption arg with
      | true =>
        obtain ⟨own, next, rest, hown, hrest, rfl⟩ := (hp.option hsep hoption).1 h
        rw [List.count_append, List.count_append, count_unmet, (readOption_spec hown).1, ih hrest,
          Nat.zero_add]
      | false =>
        obtain ⟨rest, hrest, rfl⟩ := (hp.word hsep hoption).1 h
        have hword : wordItem waiting arg ≠ .verbose := by cases waiting <;> simp [wordItem]
        rw [List.count_cons_of_ne hword, ih hrest, flagsIn_of_not_option hoption, Nat.zero_add]

/-! ## What is said apart from requests -/

/-- The items that are no requests to say more. -/
def others (items : List Item) : List Item := items.filter (· ≠ .verbose)

theorem filterMap_others {α : Type} {f : Item → Option α} (h : f .verbose = none)
    (items : List Item) : (others items).filterMap f = items.filterMap f := by
  rw [others, List.filterMap_filter]
  refine List.filterMap_congr fun item _ => ?_
  by_cases hitem : item = .verbose
  · simp [hitem, h]
  · simp [hitem]

section

variable {items items' : List Item} (h : others items' = others items)

include h

theorem filterMap_of_others {α : Type} {f : Item → Option α} (hf : f .verbose = none) :
    items'.filterMap f = items.filterMap f := by
  rw [← filterMap_others hf, h, filterMap_others hf]

theorem contains_of_others {item : Item} (hitem : item ≠ .verbose) :
    items'.contains item = items.contains item := by
  have hmem : ∀ is : List Item, item ∈ others is ↔ item ∈ is := by
    intro is
    simp [others, hitem]
  rw [Bool.eq_iff_iff, List.contains_iff_mem, List.contains_iff_mem, ← hmem, h, hmem]

theorem values_of_others : values items' = values items :=
  funext fun _ => filterMap_of_others h rfl

/-- Requests to say more make no difference to whether items make sense. -/
theorem makesSense_of_others {waiting : Option ValueOption} (hsense : MakesSense items waiting) :
    MakesSense items' waiting := by
  constructor
  · rw [values_of_others h]
    exact hsense.waits
  · rw [filterMap_of_others h rfl]
    exact hsense.files
  · rw [values_of_others h, filterMap_of_others h rfl]
    exact hsense.valued
  · rw [values_of_others h]
    exact hsense.numbers
  · rw [filterMap_of_others h rfl]
    exact hsense.once

/-- Requests to say more change nothing but their number. -/
theorem argsOf_of_others :
    argsOf items' = { argsOf items with verbosity := UInt8.ofNat (items'.count .verbose) } := by
  unfold argsOf number?
  rw [filterMap_of_others h rfl, values_of_others h, contains_of_others h (by decide)]

end

/-- The items `items'` are the items `items` with `k` requests to say more among them. -/
structure AddsRequests (k : Nat) (items items' : List Item) : Prop where
  /-- Nothing else changes. -/
  others : others items' = others items
  /-- The requests are added to those that were there. -/
  count : items'.count .verbose = items.count .verbose + k

namespace AddsRequests

variable {k : Nat} {items items' : List Item}

theorem refl (items : List Item) : AddsRequests 0 items items := ⟨rfl, rfl⟩

theorem append (h : AddsRequests k items items') (front : List Item) :
    AddsRequests k (front ++ items) (front ++ items') := by
  constructor
  · rw [CommandLine.others, CommandLine.others, List.filter_append, List.filter_append]
    exact congrArg _ h.others
  · rw [List.count_append, List.count_append, h.count, Nat.add_assoc]

theorem requests (h : AddsRequests k items items') (j : Nat) :
    AddsRequests (j + k) items (List.replicate j .verbose ++ items') := by
  constructor
  · rw [← h.others, CommandLine.others, List.filter_append, List.filter_replicate]
    rfl
  · rw [List.count_append, List.count_replicate_self, h.count, Nat.add_left_comm]

end AddsRequests

/-! ## Arguments with requests put into them -/

/-- The arguments `args'` are the arguments `args` with `k` requests to say more put in before any
`--`.  A request may make an argument of its own where that is `free`, which is anywhere but behind
an argument that waits for its value. -/
inductive Flagged : Bool → Nat → List String → List String → Prop where
  /-- There are no more arguments. -/
  | done {free : Bool} : Flagged free 0 [] []
  /-- Files behind `--` stay as they are. -/
  | names {free : Bool} (names : List String) : Flagged free 0 ("--" :: names) ("--" :: names)
  /-- An argument stays as it is. -/
  | kept {free : Bool} {k : Nat} {arg : String} {args args' : List String} :
    arg ≠ "--" → Flagged (!asksForValue arg) k args args' →
      Flagged free k (arg :: args) (arg :: args')
  /-- Requests join a cluster of one-letter options. -/
  | joined {free : Bool} {k : Nat} {cs : List Char} {args args' : List String} (j : Nat) :
    cs ≠ [] → cs.head? ≠ some '-' → Flagged (!asksForValue (short cs)) k args args' →
      Flagged free (j + k) (short cs :: args) (short (List.replicate j 'v' ++ cs) :: args')
  /-- Requests make an argument of their own. -/
  | apart {k : Nat} {args args' : List String} (j : Nat) : Flagged true k args args' →
      Flagged true (j + 1 + k) args (short (List.replicate (j + 1) 'v') :: args')

/-- An option waits for a value only if no request may follow it. -/
theorem next_eq_none {arg : String} {own : List Item} {next : Option ValueOption}
    (h : readOption arg = .ok (own, next)) (hfree : (!asksForValue arg) = true) : next = none := by
  rcases (readOption_spec h).2 with hnone | hasks
  · exact hnone
  · rw [hasks] at hfree
    cases hfree

/-- The same is read from arguments with requests put into them, but for the requests.  The
induction is on where the requests are put; no option waits where one may stand freely. -/
theorem Parser.Rules.flagged {p : Parser} (hp : p.Rules) {free : Bool} {k : Nat}
    {args args' : List String} (h : Flagged free k args args')
    {waiting last : Option ValueOption} {items : List Item}
    (hfree : free = true → waiting = none) (hread : p.split waiting args = .ok (items, last)) :
    ∃ items', p.split waiting args' = .ok (items', last) ∧ AddsRequests k items items' := by
  induction h generalizing waiting items with
  | done => exact ⟨items, hread, .refl items⟩
  | names names => exact ⟨items, hread, .refl items⟩
  | @kept free k arg args args' hsep _ ih =>
    cases hoption : isOption arg with
    | true =>
      obtain ⟨own, next, rest, hown, hrest, rfl⟩ := (hp.option hsep hoption).1 hread
      obtain ⟨rest', hrest', hadds⟩ := ih (next_eq_none hown) hrest
      exact ⟨_, (hp.option hsep hoption).2 ⟨own, next, rest', hown, hrest', rfl⟩,
        hadds.append _⟩
    | false =>
      obtain ⟨rest, hrest, rfl⟩ := (hp.word hsep hoption).1 hread
      obtain ⟨rest', hrest', hadds⟩ := ih (fun _ => rfl) hrest
      exact ⟨_, (hp.word hsep hoption).2 ⟨rest', hrest', rfl⟩, hadds.append [_]⟩
  | @joined free k cs args args' j hne hdash _ ih =>
    obtain ⟨own, next, rest, hown, hrest, rfl⟩ :=
      (hp.option (short_ne_separator hdash) (isOption_short hne)).1 hread
    obtain ⟨rest', hrest', hadds⟩ := ih (next_eq_none hown) hrest
    rw [readOption_short hdash] at hown
    have hdash' := head_flagged hdash j
    have hown' := readOption_flagged hdash hown j
    refine ⟨_, (hp.option (short_ne_separator hdash') (isOption_short (by simp [hne]))).2
      ⟨_, next, rest', hown', hrest', rfl⟩, ?_⟩
    rw [List.append_assoc, List.append_assoc, List.append_assoc]
    exact ((hadds.append own).requests j).append (unmet waiting)
  | @apart k args args' j _ ih =>
    obtain ⟨rest', hrest', hadds⟩ := ih hfree hread
    obtain rfl := hfree rfl
    exact ⟨_, (hp.requests j).2 ⟨rest', hrest', rfl⟩, hadds.requests (j + 1)⟩

/-- Arguments that make sense ask for the level that goes by the number of their requests. -/
theorem Parser.Rules.level_eq {p : Parser} (hp : p.Rules) {args : List String} {o : Options}
    (ho : p.options args = .ok o) : o.level = .requested (flags args % 256) := by
  obtain ⟨items, waiting, hitems, -, rfl⟩ := options_eq_ok_iff.1 ho
  rw [← hp.count_eq hitems, ← Level.ofVerbosity_ofNat]
  rfl

/-- Arguments with requests put into them ask for the same as before, but for the level, which goes
by the number of all requests. -/
theorem Parser.Rules.options_flagged {p : Parser} (hp : p.Rules) {k : Nat}
    {args args' : List String} {o : Options} (h : Flagged true k args args')
    (ho : p.options args = .ok o) :
    flags args' = flags args + k
      ∧ p.options args' = .ok { o with level := .requested ((flags args + k) % 256) } := by
  obtain ⟨items, waiting, hitems, hcheck, rfl⟩ := options_eq_ok_iff.1 ho
  obtain ⟨items', hitems', hadds⟩ := hp.flagged h (fun _ => rfl) hitems
  have hcount : items'.count .verbose = flags args + k := by
    rw [hadds.count, hp.count_eq hitems]
  refine ⟨(hp.count_eq hitems').symm.trans hcount, ?_⟩
  have hcheck' := (hp.check _ _).2 (makesSense_of_others hadds.others ((hp.check _ _).1 hcheck))
  refine options_eq_ok_iff.2 ⟨items', waiting, hitems', hcheck', ?_⟩
  rw [argsOf_of_others hadds.others, hcount, ← Level.ofVerbosity_ofNat]
  rfl

/-- Options have the level that goes by `n` requests in a byte, which is the level that the requests
ask for unless too little of their number is left in it. -/
structure LevelFollows (o : Options) (n : Nat) : Prop where
  /-- The number is cut down to a byte. -/
  level : o.level = .requested (n % 256)
  /-- The requests are met in just these cases. -/
  met : o.level = .requested n ↔ n < 3 ∨ 3 ≤ n % 256

theorem levelFollows_of_level {o : Options} {n : Nat} (h : o.level = .requested (n % 256)) :
    LevelFollows o n := ⟨h, by rw [h, Level.requested_mod_eq_iff]⟩

/-- **Levels and requests.**  The level of a run goes by the number of requests among its arguments,
wherever they stand.  Putting more of them into arguments that make sense leaves all other options
as they are, and it does not lower the level as long as a byte can hold their number. -/
theorem level_requested {args : List String} {o : Options}
    (ho : Options.ofArguments args = .ok o) :
    LevelFollows o (flags args) ∧ ∀ k args', Flagged true k args args' →
      ∃ o', Options.ofArguments args' = .ok o' ∧ flags args' = flags args + k
        ∧ o'.files = o.files ∧ o'.settings = o.settings ∧ LevelFollows o' (flags args + k)
        ∧ (flags args + k < 256 → o.level.rank ≤ o'.level.rank) := by
  rw [← Parser.options_standard] at ho ⊢
  have hlevel := Parser.rules_standard.level_eq ho
  refine ⟨levelFollows_of_level hlevel, fun k args' hflagged => ?_⟩
  obtain ⟨hcount, ho'⟩ := Parser.rules_standard.options_flagged hflagged ho
  refine ⟨_, ho', hcount, rfl, rfl, levelFollows_of_level rfl, fun hbyte => ?_⟩
  rw [hlevel, Level.rank_requested, Level.rank_requested, Nat.mod_eq_of_lt hbyte]
  omega

theorem level_requested_cluster :
    Options.ofArguments ["-vvn7", "a", "--", "-v"]
        = .ok ⟨["a", "-v"], .debug, ⟨false, none, some 7⟩⟩
      ∧ LevelFollows ⟨["a", "-v"], .debug, ⟨false, none, some 7⟩⟩ 2 := by
  have h : Options.ofArguments ["-vvn7", "a", "--", "-v"]
      = .ok ⟨["a", "-v"], .debug, ⟨false, none, some 7⟩⟩ := by decide
  exact ⟨h, (level_requested h).1⟩

/-- The level does not always go by the number of requests: 256 of them count as none. -/
theorem requests_wrap : ¬ ∀ args o, Options.ofArguments args = .ok o →
    o.level = .requested (flags args) := by
  intro h
  have hplain : Options.ofArguments ["a"] = .ok ⟨["a"], .warn, ⟨false, none, none⟩⟩ := by decide
  have hflagged : Flagged true 256 ["a"] [short (List.replicate 256 'v'), "a"] :=
    .apart 255 (.kept (by decide) .done)
  rw [← Parser.options_standard] at h hplain
  obtain ⟨hcount, hargs⟩ := Parser.rules_standard.options_flagged hflagged hplain
  have hlevel := h _ _ hargs
  rw [hcount] at hlevel
  exact absurd hlevel (by decide)

end CommandLine

end PageCodec
