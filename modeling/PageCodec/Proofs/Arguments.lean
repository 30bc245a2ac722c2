import PageCodec.CommandLine.Options

/-!
# Arguments one by one

What a list of arguments says is what its first argument says and then what the others say, where
an option at the end of the first may wait for the second to be its value.  This and a few other
rules are all that is taken for granted of the parser behind a run.

* `CommandLine.MakesSense` — items that can be carried out together.
* `CommandLine.Parser`, `CommandLine.Parser.Rules` — a way to split arguments and to look at what
  they say, and the rules that it has to go by; the program's own parser does
  (`CommandLine.Parser.rules_standard`).
* `CommandLine.short` — arguments that are one-letter options, and how they are read.
* `CommandLine.flagsIn`, `CommandLine.asksForValue` — what is told of an argument by its text
  alone, as far as it is an option (`CommandLine.readOption_spec`).
* `CommandLine.Parser.options_eq_ok_iff` — when arguments ask for options, and for which.
-/

namespace PageCodec

theorem except_bind_eq_ok_iff {ε α β : Type} {x : Except ε α} {f : α → Except ε β} {b : β} :
    x >>= f = .ok b ↔ ∃ a, x = .ok a ∧ f a = .ok b := by
  cases x with
  | error e =>
    constructor
    · rintro ⟨⟩
    · rintro ⟨_, ⟨⟩, _⟩
  | ok a =>
    constructor
    · exact fun h => ⟨a, rfl, h⟩
    · rintro ⟨_, ⟨⟩, h⟩
      exact h

namespace CommandLine

/-! ## Parsers -/

/-- What an argument says that is no option. -/
def wordItem : Option ValueOption → String → Item
  | some option, arg => .valued option (some arg)
  | none, arg => .file arg

/-- Items that can be carried out together, with an option behind them that may wait for its
value. -/
structure MakesSense (items : List Item) (waiting : Option ValueOption) : Prop where
  /-- An option that waits at the end has a value elsewhere. -/
  waits : ∀ option ∈ waiting, values items option ≠ []
  /-- There is a file. -/
  files : items.filterMap Item.file? ≠ []
  /-- An option that takes a value has one if it comes. -/
  valued : ∀ option, .valued option ∈ items.filterMap Item.single? → values items option ≠ []
  /-- All values are numbers in range. -/
  numbers : ∀ option, ∀ text ∈ values items option, (option.read text).isSome
  /-- Options that may come only once do. -/
  once : ∀ s, (items.filterMap Item.single?).count s ≤ 1

/-- A parser of arguments. -/
structure Parser where
  /-- Splits arguments into items, where an option before them may wait for its value. -/
  split : Option ValueOption → List String → Except UsageError Reading
  /-- Looks at all items. -/
  check : Reading → Except UsageError Unit

namespace Parser

/-- The parser of the program. -/
def standard : Parser := ⟨readFrom, CommandLine.check⟩

/-- The options that arguments ask for. -/
def options (p : Parser) (args : List String) : Except UsageError Options := do
  let reading ← p.split none args
  p.check reading
  return .ofArgs (argsOf reading.1)

theorem options_standard : standard.options = Options.ofArguments := rfl

/-- What is taken for granted of a parser.  Nothing is said of why arguments that make no sense are
turned down. -/
structure Rules (p : Parser) : Prop where
  /-- At the end an option that waits has no value. -/
  done : ∀ waiting, p.split waiting [] = .ok (unmet waiting, waiting)
  /-- Everything behind `--` is a file. -/
  separator : ∀ waiting names, p.split waiting ("--" :: names)
    = .ok (unmet waiting ++ names.map .file, if names.isEmpty then waiting else none)
  /-- An argument with a dash in front, other than a dash alone, is an option and never a value. -/
  option : ∀ {waiting last arg args items}, arg ≠ "--" → isOption arg = true →
    (p.split waiting (arg :: args) = .ok (items, last) ↔ ∃ own next rest,
      readOption arg = .ok (own, next) ∧ p.split next args = .ok (rest, last)
        ∧ items = unmet waiting ++ own ++ rest)
  /-- Any other argument is the value of the option that waits for one, or else a file. -/
  word : ∀ {waiting last arg args items}, arg ≠ "--" → isOption arg = false →
    (p.split waiting (arg :: args) = .ok (items, last) ↔ ∃ rest,
      p.split none args = .ok (rest, last) ∧ items = wordItem waiting arg :: rest)
  /-- Items pass if they make sense. -/
  check : ∀ items waiting, p.check (items, waiting) = .ok () ↔ MakesSense items waiting

end Parser

/-! ## The parser of the program -/

theorem forM_eq_ok_iff {ε α : Type} {check : α → Except ε Unit} {as : List α} :
    as.forM check = .ok () ↔ ∀ a ∈ as, check a = .ok () := by
  induction as with
  | nil => exact iff_of_true rfl (List.forall_mem_nil _)
  | cons a as ih =>
    rw [List.forall_mem_cons, ← ih]
    exact except_bind_eq_ok_iff.trans ⟨fun ⟨_, h⟩ => h, fun h => ⟨(), h⟩⟩

theorem checkValues_eq_ok_iff {items : List Item} {option : ValueOption} :
    checkValues items option = .ok () ↔ values items option ≠ []
      ∧ ∀ text ∈ values items option, (option.read text).isSome := by
  unfold checkValues
  by_cases hnone : values items option = []
  · simp [hnone]
  · rw [if_neg (by rwa [List.isEmpty_iff])]
    cases hall : (values items option).all fun text => (option.read text).isSome with
    | true => exact iff_of_true rfl ⟨hnone, List.all_eq_true.1 hall⟩
    | false =>
      refine iff_of_false nofun fun h => ?_
      rw [List.all_eq_true.2 h.2] at hall
      cases hall

theorem checkSingle_eq_ok_iff {items : List Item} {s : Single} :
    checkSingle items s = .ok ()
      ↔ (∀ option, s = .valued option → checkValues items option = .ok ())
        ∧ (items.filterMap Item.single?).count s ≤ 1 := by
  unfold checkSingle
  by_cases honce : 1 < (items.filterMap Item.single?).count s
  · rw [if_pos honce]
    refine iff_of_false (fun h => ?_) fun h => Nat.not_le.2 honce h.2
    cases s with
    | perPage => cases h
    | valued option =>
      obtain ⟨_, _, hthrow⟩ := except_bind_eq_ok_iff.1 h
      cases hthrow
  · rw [if_neg honce]
    cases s with
    | perPage => exact iff_of_true rfl ⟨nofun, Nat.not_lt.1 honce⟩
    | valued option =>
      refine except_bind_eq_ok_iff.trans ⟨?_, fun h => ⟨(), h.1 option rfl, rfl⟩⟩
      rintro ⟨_, hvalues, _⟩
      refine ⟨?_, Nat.not_lt.1 honce⟩
      rintro _ ⟨⟩
      exact hvalues

/-- An option that has a value comes. -/
theorem mem_singles_of_value {items : List Item} {option : ValueOption} {text : String}
    (h : text ∈ values items option) : .valued option ∈ items.filterMap Item.single? := by
  obtain ⟨item, hitem, hvalue⟩ := List.mem_filterMap.1 h
  refine List.mem_filterMap.2 ⟨item, hitem, ?_⟩
  cases item with
  | valued o value =>
    by_cases ho : o = option
    · rw [ho]
      rfl
    · simp [Item.valueOf?, ho] at hvalue
  | _ => cases hvalue

/-- Options pass if each of them has what it needs and none comes too often. -/
theorem forM_checkSingle_eq_ok_iff {items : List Item} :
    (singles items).forM (checkSingle items) = .ok () ↔
      (∀ option, .valued option ∈ items.filterMap Item.single? → values items option ≠ [])
        ∧ (∀ option, ∀ text ∈ values items option, (option.read text).isSome)
        ∧ ∀ s, (items.filterMap Item.single?).count s ≤ 1 := by
  rw [forM_eq_ok_iff]
  constructor
  · intro h
    have hsingle : ∀ s ∈ items.filterMap Item.single?, _ := fun s hs =>
      checkSingle_eq_ok_iff.1 (h s (List.mem_eraseDups.2 hs))
    have hvalues : ∀ option, .valued option ∈ items.filterMap Item.single? → _ := fun option hs =>
      checkValues_eq_ok_iff.1 ((hsingle _ hs).1 option rfl)
    refine ⟨fun option hs => (hvalues option hs).1, fun option text htext => ?_, fun s => ?_⟩
    · exact (hvalues option (mem_singles_of_value htext)).2 text htext
    · by_cases hs : s ∈ items.filterMap Item.single?
      · exact (hsingle s hs).2
      · rw [List.count_eq_zero_of_not_mem hs]
        exact Nat.zero_le 1
  · rintro ⟨hvalued, hnumbers, honce⟩ s hs
    refine checkSingle_eq_ok_iff.2 ⟨?_, honce s⟩
    rintro option rfl
    exact checkValues_eq_ok_iff.2 ⟨hvalued option (List.mem_eraseDups.1 hs), hnumbers option⟩

/-- Items pass the checks of the program if they make sense. -/
theorem check_eq_ok_iff {items : List Item} {waiting : Option ValueOption} :
    check (items, waiting) = .ok () ↔ MakesSense items waiting := by
  have hwaits : (waiting.any fun option => (values items option).isEmpty) = false
      ↔ ∀ option ∈ waiting, values items option ≠ [] := by
    cases waiting <;> simp
  unfold check
  dsimp only
  constructor
  · intro h
    split at h
    · cases h
    · split at h
      · cases h
      · rename_i hwaiting hfiles
        obtain ⟨hvalued, hnumbers, honce⟩ := forM_checkSingle_eq_ok_iff.1 h
        rw [List.isEmpty_iff] at hfiles
        exact ⟨hwaits.1 (Bool.eq_false_iff.2 hwaiting), hfiles, hvalued, hnumbers, honce⟩
  · intro h
    rw [hwaits.2 h.waits, if_neg Bool.false_ne_true, if_neg (by simpa using h.files),
      forM_checkSingle_eq_ok_iff]
    exact ⟨h.valued, h.numbers, h.once⟩

theorem Parser.rules_standard : standard.Rules where
  done _ := rfl
  separator waiting names := by
    show readFrom waiting ("--" :: names) = _
    rw [readFrom, if_pos rfl]
  option := by
    intro waiting last arg args items hsep h
    show readFrom waiting (arg :: args) = _ ↔ _
    rw [readFrom, if_neg hsep, if_pos h, except_bind_eq_ok_iff]
    constructor
    · rintro ⟨⟨own, next⟩, hown, h⟩
      obtain ⟨⟨rest, last'⟩, hrest, h⟩ := except_bind_eq_ok_iff.1 h
      cases h
      exact ⟨own, next, rest, hown, hrest, rfl⟩
    · rintro ⟨own, next, rest, hown, hrest, rfl⟩
      exact ⟨_, hown, except_bind_eq_ok_iff.2 ⟨_, hrest, rfl⟩⟩
  word := by
    intro waiting last arg args items hsep h
    show readFrom waiting (arg :: args) = _ ↔ _
    rw [readFrom, if_neg hsep, h, if_neg Bool.false_ne_true, except_bind_eq_ok_iff]
    constructor
    · rintro ⟨⟨rest, last'⟩, hrest, h⟩
      cases waiting <;> cases h <;> exact ⟨rest, hrest, rfl⟩
    · rintro ⟨rest, hrest, rfl⟩
      refine ⟨_, hrest, ?_⟩
      cases waiting <;> rfl
  check _ _ := check_eq_ok_iff

variable {p : Parser} {waiting last : Option ValueOption} {arg : String}
  {args : List String} {items : List Item}

/-! ## One-letter options -/

/-- A single dash and the letters of one-letter options behind it. -/
def short (cs : List Char) : String := String.ofList ('-' :: cs)

theorem toList_short (cs : List Char) : (short cs).toList = '-' :: cs := String.toList_ofList

section

variable {cs : List Char}

theorem short_ne_separator (h : cs.head? ≠ some '-') : short cs ≠ "--" := by
  intro hsep
  have hlist : '-' :: cs = ['-', '-'] := by rw [← toList_short, hsep]; rfl
  cases hlist
  exact h rfl

theorem isOption_short (h : cs ≠ []) : isOption (short cs) = true := by
  obtain ⟨c, cs, rfl⟩ := List.exists_cons_of_ne_nil h
  rw [isOption, toList_short]
  rfl

theorem readOption_short (h : cs.head? ≠ some '-') : readOption (short cs) = readCluster cs := by
  rw [readOption, toList_short]
  split
  · cases ‹_›
    exact absurd rfl h
  · cases ‹_›
    rfl
  · rename_i hnot
    exact absurd rfl (hnot cs)

/-- Letters `v` in front of other letters are as many requests to say more. -/
theorem readCluster_flags (j : Nat) (cs : List Char) :
    readCluster (List.replicate j 'v' ++ cs)
      = (readCluster cs).map fun r => (List.replicate j .verbose ++ r.1, r.2) := by
  induction j with
  | zero =>
    rw [List.replicate_zero, List.nil_append]
    cases readCluster cs <;> rfl
  | succ j ih =>
    rw [List.replicate_succ, List.cons_append, readCluster, ih]
    cases readCluster cs <;> rfl

theorem head_flagged (h : cs.head? ≠ some '-') (j : Nat) :
    (List.replicate j 'v' ++ cs).head? ≠ some '-' := by
  cases j <;> simp [List.replicate_succ, h]

theorem readOption_flagged {own : List Item} {next : Option ValueOption}
    (hdash : cs.head? ≠ some '-') (h : readCluster cs = .ok (own, next)) (j : Nat) :
    readOption (short (List.replicate j 'v' ++ cs))
      = .ok (List.replicate j .verbose ++ own, next) := by
  rw [readOption_short (head_flagged hdash j), readCluster_flags, h]
  rfl

/-- A cluster of requests is read for itself. -/
theorem Parser.Rules.requests (hp : p.Rules) (j : Nat) :
    p.split none (short (List.replicate (j + 1) 'v') :: args) = .ok (items, last) ↔ ∃ rest,
      p.split none args = .ok (rest, last)
        ∧ items = List.replicate (j + 1) .verbose ++ rest := by
  have hdash : (List.replicate (j + 1) 'v').head? ≠ some '-' := by
    simp [List.replicate_succ]
  have hown : readOption (short (List.replicate (j + 1) 'v' ++ []))
      = .ok (List.replicate (j + 1) .verbose ++ [], none) :=
    readOption_flagged (by simp) rfl (j + 1)
  rw [List.append_nil, List.append_nil] at hown
  rw [hp.option (short_ne_separator hdash) (isOption_short (by simp)), hown]
  constructor
  · rintro ⟨own, next, rest, ⟨⟩, hrest, rfl⟩
    exact ⟨rest, hrest, rfl⟩
  · rintro ⟨rest, hrest, rfl⟩
    exact ⟨_, _, rest, rfl, hrest, rfl⟩

end

/-! ## What an option says -/

/-- The letters `v` that come first are the requests of a cluster, and the option behind them waits
for its value only if it is the last letter. -/
theorem readCluster_spec {cs : List Char} {own : List Item} {next : Option ValueOption}
    (h : readCluster cs = .ok (own, next)) :
    own.count .verbose = (cs.takeWhile (· = 'v')).length
      ∧ (next = none ∨ cs.dropWhile (· = 'v') = ['n']) := by
  fun_induction readCluster cs generalizing own with
  | case1 =>
    cases h
    exact ⟨rfl, .inl rfl⟩
  | case2 cs ih =>
    obtain ⟨⟨items, waiting⟩, hitems, h⟩ := except_bind_eq_ok_iff.1 h
    cases h
    obtain ⟨hcount, hnext⟩ := ih hitems
    exact ⟨by simp [hcount], hnext⟩
  | case3 =>
    cases h
    exact ⟨rfl, .inr rfl⟩
  | case4 cs =>
    cases h
    exact ⟨rfl, .inl rfl⟩
  | case5 => cases h
  | case6 => cases h
  | case7 => cases h

theorem takeWhile_of_attachedValue {cs : List Char} (h : attachedValue cs = none) :
    cs.takeWhile (· ≠ '=') = cs := by
  fun_induction attachedValue cs with
  | case1 => rfl
  | case2 cs => cases h
  | case3 c cs hc ih => rw [List.takeWhile_cons_of_pos (by simpa using hc), ih h]

theorem readBare_eq_ok {value : Option String} {reading : Except UsageError Reading} {r : Reading}
    (h : readBare value reading = .ok r) : reading = .ok r := by
  cases value with
  | none => exact h
  | some value => cases h

theorem readValued_cases {option : ValueOption} {value : Option String} {own : List Item}
    {next : Option ValueOption} (h : readValued option value = .ok (own, next)) :
    (∃ text, own = [.valued option (some text)] ∧ next = none)
      ∨ (own = [] ∧ next = some option ∧ value = none) := by
  cases value with
  | none =>
    cases h
    exact .inr ⟨rfl, rfl, rfl⟩
  | some text =>
    cases h
    exact .inl ⟨text, rfl, rfl⟩

/-- The name of an option that takes a value. -/
def ValueOption.longName : ValueOption → String
  | .limit => "limit"
  | .algorithmId => "algorithm-id"

/-- Two dashes and a name stand for one option, with its value, waiting for it, or without one. -/
theorem readLong_cases {cs : List Char} {own : List Item} {next : Option ValueOption}
    (h : readLong cs = .ok (own, next)) :
    (own = [.perPage] ∧ next = none)
      ∨ (∃ option value, own = [.valued option (some value)] ∧ next = none)
      ∨ (∃ option : ValueOption, own = [] ∧ next = some option
        ∧ String.ofList cs = option.longName) := by
  have hvalued : ∀ option : ValueOption,
      String.ofList (cs.takeWhile (· ≠ '=')) = option.longName →
      readValued option (attachedValue cs) = .ok (own, next) →
      (∃ option value, own = [.valued option (some value)] ∧ next = none)
        ∨ (∃ option : ValueOption, own = [] ∧ next = some option
          ∧ String.ofList cs = option.longName) := by
    intro option hname h
    rcases readValued_cases h with ⟨text, hown, hnext⟩ | ⟨hown, hnext, hvalue⟩
    · exact .inl ⟨option, text, hown, hnext⟩
    · rw [takeWhile_of_attachedValue hvalue] at hname
      exact .inr ⟨option, hown, hnext, hname⟩
  unfold readLong at h
  dsimp only at h
  split at h
  · cases readBare_eq_ok h
    exact .inl ⟨rfl, rfl⟩
  · cases readBare_eq_ok h
  · cases readBare_eq_ok h
  · exact .inr (hvalued .limit ‹_› h)
  · exact .inr (hvalued .algorithmId ‹_› h)
  · cases h

/-! ## What is told by the text -/

/-- Number of requests to say more in an argument: the letters `v` that come first behind a single
dash. -/
def flagsIn (arg : String) : Nat :=
  match arg.toList with
  | '-' :: cs => (cs.takeWhile (· = 'v')).length
  | _ => 0

/-- The next argument will be taken for the value of this one, unless it is an option. -/
def asksForValue (arg : String) : Bool :=
  match arg.toList with
  | '-' :: cs => cs = "-limit".toList || cs = "-algorithm-id".toList
    || cs.dropWhile (· = 'v') = ['n']
  | _ => false

/-- An option makes the requests that its text shows, and waits for a value only if its text asks
for one. -/
theorem readOption_spec {own : List Item} {next : Option ValueOption}
    (h : readOption arg = .ok (own, next)) :
    own.count .verbose = flagsIn arg ∧ (next = none ∨ asksForValue arg = true) := by
  unfold readOption at h
  unfold flagsIn asksForValue
  split at h
  · rename_i cs heq
    rw [heq]
    rcases readLong_cases h with ⟨rfl, rfl⟩ | ⟨_, _, rfl, rfl⟩ | ⟨option, rfl, rfl, hname⟩
    · exact ⟨rfl, .inl rfl⟩
    · exact ⟨rfl, .inl rfl⟩
    · have hcs : cs = option.longName.toList := by rw [← hname, String.toList_ofList]
      subst hcs
      exact ⟨rfl, .inr (by cases option <;> rfl)⟩
  · rename_i cs hdash heq
    rw [heq]
    obtain ⟨hcount, hnext⟩ := readCluster_spec h
    refine ⟨hcount, hnext.imp_right fun hn => ?_⟩
    simp [hn]
  · cases h

theorem flagsIn_of_not_option (h : isOption arg = false) : flagsIn arg = 0 := by
  unfold isOption at h
  unfold flagsIn
  split at h
  · cases h
  · rename_i hnot
    split
    · rename_i cs heq
      cases cs with
      | nil => rfl
      | cons c cs => exact absurd heq (hnot c cs)
    · rfl

/-! ## The options that arguments ask for -/

theorem Parser.options_eq_ok_iff {o : Options} : p.options args = .ok o ↔
    ∃ items waiting, p.split none args = .ok (items, waiting) ∧ p.check (items, waiting) = .ok ()
      ∧ o = .ofArgs (argsOf items) := by
  rw [options, except_bind_eq_ok_iff]
  constructor
  · rintro ⟨⟨items, waiting⟩, hitems, h⟩
    obtain ⟨⟨⟩, hcheck, h⟩ := except_bind_eq_ok_iff.1 h
    cases h
    exact ⟨items, waiting, hitems, hcheck, rfl⟩
  · rintro ⟨items, waiting, hitems, hcheck, rfl⟩
    exact ⟨_, hitems, except_bind_eq_ok_iff.2 ⟨(), hcheck, rfl⟩⟩

end CommandLine

end PageCodec
