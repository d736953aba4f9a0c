import Btide.Command.Lifetime

/-!
# `Command.Feed` — sessions that are fed lines

A line with one argument is read whole and the argument is found in it (`IsWord.read_line`).

The rule for sessions whose next lines are known (`Feeds.run`): if each of these lines, when its turn
comes, is carried out with the same message and takes one item off an invariant that the other events
keep up, then this is what happens, in whatever order the other events come in between.
-/

namespace Btide

/-! ## A command and its argument -/

/-- A text that `%s` reads as a whole. -/
structure IsWord (w : Str) : Prop where
  ne : w ≠ []
  chars : ∀ c ∈ w, isSpace c = false ∧ c ≠ 0

/-- The line that gives the argument `w` to the command `name`. -/
def argumentLine (name : String) (w : Str) : Str := bytes name ++ 32 :: w ++ [newline]

section Line

variable {name : String} {w stdin rest : Str}

theorem IsWord.word_line (h : IsWord w) : word name (argumentLine name w) = some w := by
  have hline : argumentLine name w = bytes name ++ (32 :: (w ++ [newline])) := by
    rw [argumentLine, List.append_assoc, List.cons_append]
  have hbegins : (bytes name).isPrefixOf (argumentLine name w) = true := by
    rw [hline]
    exact List.isPrefixOf_iff_prefix.mpr (List.prefix_append _ _)
  have hdrop : (argumentLine name w).drop (bytes name).length = 32 :: (w ++ [newline]) := by
    rw [hline, List.drop_left]
  have hstart : (32 :: (w ++ [newline])).dropWhile isSpace = w ++ [newline] := by
    have hstops : Stops isSpace (w ++ [newline]) := by
      obtain ⟨c, cs, rfl⟩ := List.exists_cons_of_ne_nil h.ne
      exact Stops.cons (h.chars c List.mem_cons_self).1 _
    exact hstops.dropWhile
  have htake : (w ++ [newline]).takeWhile (fun c => !isSpace c) = w :=
    takeWhile_munch (fun c hc => by simp [(h.chars c hc).1]) (Stops.cons rfl [])
  simp only [word, if_pos hbegins, hdrop, hstart, htake, if_neg h.ne]

/-- A short line is read whole, whatever follows it. -/
theorem IsWord.read_line (h : IsWord w) (hname : newline ∉ bytes name ∧ 0 ∉ bytes name)
    (hlen : (bytes name).length + w.length < MAX_BUFFER) {s : Session}
    (hstdin : s.stdin = argumentLine name w ++ rest) :
    word name (inputLine s.stdin) = some w ∧ s.read = { s with stdin := rest } := by
  have hzero : 0 ∉ argumentLine name w := by
    intro hmem
    rw [argumentLine, List.mem_append, List.mem_append, List.mem_cons] at hmem
    rcases hmem with (hmem | hmem | hmem) | hmem
    · exact hname.2 hmem
    · cases hmem
    · exact (h.chars 0 hmem).2 rfl
    · exact absurd hmem (by decide)
  have hwhole : Whole (MAX_INPUT - 2 + 1) (argumentLine name w) := by
    refine ⟨bytes name ++ 32 :: w, rfl, fun hmem => ?_, ?_⟩
    · rcases List.mem_append.mp hmem with hmem | hmem
      · exact hname.1 hmem
      · rcases List.mem_cons.mp hmem with hmem | hmem
        · cases hmem
        · exact absurd (h.chars newline hmem).1 (by decide)
    · unfold MAX_BUFFER at hlen
      unfold MAX_INPUT
      rw [List.length_append, List.length_cons]
      omega
  have hfirst : firstLine (MAX_INPUT - 2 + 1) s.stdin = argumentLine name w := by
    rw [hstdin]
    exact firstLine_whole hwhole rest
  rw [inputLine, Session.read, hfirst, cString_eq hzero, hstdin, List.drop_left]
  exact ⟨h.word_line, rfl⟩

end Line

/-! ## The rule -/

/-- The line of each item is carried out with the message and takes the item off the invariant; the other
    events keep it up. The events so far are at hand. -/
structure Feeds {α : Type} (env : Env) (line : α → Str) (message : Str)
    (Inv : List α → List SessionEvent → Session → Prop) : Prop where
  command : ∀ {a todo es rest} {u : Session}, Inv (a :: todo) es u → u.stdin = line a ++ rest →
    u.mainLoop = true → ∀ locals junk created, ∃ u',
      u.Step env (.command locals junk created message) u' ∧ u'.stdin = rest ∧ u'.mainLoop = true ∧
        Inv todo (es ++ [.command locals junk created message]) u'
  finished : ∀ {todo es} {u : Session} {peer sockfd net}, Inv todo es u →
    u.net.step (.finished peer sockfd) = some net →
      Inv todo (es ++ [.finished peer sockfd]) { u with net := net }
  changed : ∀ {todo es} {u : Session} {files}, Inv todo es u →
    Inv todo (es ++ [.changed files]) { u with managed := { u.managed with files := files } }

namespace Feeds

variable {α : Type} {env : Env} {line : α → Str} {message rest : Str}
  {Inv : List α → List SessionEvent → Session → Prop} {order : List α} {s t : Session}
  {es : List SessionEvent}

/-- The state once some of the lines have been read. -/
structure Reached (line : α → Str) (message rest : Str)
    (Inv : List α → List SessionEvent → Session → Prop) (todo : List α) (es : List SessionEvent)
    (t : Session) : Prop where
  printed : ∀ locals junk created out, .command locals junk created out ∈ es → out = message
  running : t.mainLoop = true
  stdin : t.stdin = todo.flatMap line ++ rest
  inv : Inv todo es t

/-- The next line is carried out. -/
theorem Reached.next {a : α} {todo : List α} (hfeeds : Feeds env line message Inv)
    (h : Reached line message rest Inv (a :: todo) es t) (locals : Locals) (junk : Junk)
    (created : Bool) : ∃ t', t.Step env (.command locals junk created message) t' ∧
      Reached line message rest Inv todo (es ++ [.command locals junk created message]) t' := by
  have hstdin := h.stdin
  rw [List.flatMap_cons, List.append_assoc] at hstdin
  obtain ⟨t', hstep, hrest, hloop, hinv⟩ := hfeeds.command h.inv hstdin h.running locals junk created
  refine ⟨t', hstep, fun locals junk created out hmem => ?_, hloop, hrest, hinv⟩
  rcases List.mem_append.mp hmem with hmem | hmem
  · exact h.printed locals junk created out hmem
  · cases List.mem_singleton.mp hmem
    rfl

/-- One event that is not a command. -/
theorem Reached.other {todo : List α} {e : SessionEvent}
    (h : Reached line message rest Inv todo es s)
    (he : ∀ locals junk created out, e ≠ .command locals junk created out)
    (hloop : t.mainLoop = s.mainLoop) (hstdin : t.stdin = s.stdin) (hinv : Inv todo (es ++ [e]) t) :
    Reached line message rest Inv todo (es ++ [e]) t := by
  refine ⟨fun locals junk created out hmem => ?_, hloop.trans h.running, hstdin.trans h.stdin, hinv⟩
  rcases List.mem_append.mp hmem with hmem | hmem
  · exact h.printed locals junk created out hmem
  · exact absurd (List.mem_singleton.mp hmem).symm (he locals junk created out)

/-- **Run rule.** -/
theorem run (hfeeds : Feeds env line message Inv) (hstart : Inv order [] s)
    (hloop : s.mainLoop = true) (hstdin : s.stdin = order.flatMap line ++ rest)
    (hrun : Steps (Session.Step env) s es t) (hcount : commands es ≤ order.length) :
    Reached line message rest Inv (order.drop (commands es)) es t := by
  induction hrun with
  | nil => exact ⟨fun _ _ _ _ hmem => absurd hmem List.not_mem_nil, hloop, hstdin, hstart⟩
  | @snoc t u es e _ hlast ih =>
      have hcommands : commands (es ++ [e]) = commands es + commands [e] := List.countP_append ..
      rw [hcommands] at hcount ⊢
      have hreached := ih (by omega)
      cases e with
      | command locals junk created out =>
          have hlt : commands es < order.length := hcount
          rw [List.drop_eq_getElem_cons hlt] at hreached
          obtain ⟨t', ⟨_, hsettles⟩, hnext⟩ := hreached.next hfeeds locals junk created
          cases hlast.2.unique hsettles
          exact hnext
      | finished peer sockfd =>
          obtain ⟨_, net, hnet, rfl⟩ := hlast
          exact hreached.other (fun _ _ _ _ he => nomatch he) rfl rfl (hfeeds.finished hreached.inv hnet)
      | changed files =>
          cases hlast
          exact hreached.other (fun _ _ _ _ he => nomatch he) rfl rfl (hfeeds.changed hreached.inv)

/-- As long as lines are left, the next one is carried out. -/
theorem progress (hfeeds : Feeds env line message Inv)
    (h : Reached line message rest Inv (order.drop (commands es)) es t)
    (hlt : commands es < order.length) (locals : Locals) (junk : Junk) (created : Bool) :
    ∃ t', t.Step env (.command locals junk created message) t' := by
  rw [List.drop_eq_getElem_cons hlt] at h
  obtain ⟨t', hstep, _⟩ := h.next hfeeds locals junk created
  exact ⟨t', hstep⟩

end Feeds

end Btide
