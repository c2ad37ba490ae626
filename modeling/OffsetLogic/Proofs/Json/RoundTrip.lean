import OffsetLogic.Json.Forms
import OffsetLogic.Proofs.Json.Printed

/-!
# Values of every type are read back

What is printed for a value is read back as the value. That the text is read as the JSON value that
was printed is `Json.parse?_render`; here the JSON forms are undone, and each type has one lemma
that says so (`Json.Lawful`), built from those of the types in it.

**Depth is counted alike on both sides.** A reader may enter as many containers as it is told, one
less in each, and the form of a value needs as many as arrays and objects nest in it (`Json.depth`),
so a limit that covers the whole form is passed on to each part in the amount that the part needs.

Sets are rebuilt from their members, which gives them back because a set is the ascending list of
its members, and substitutions from their bindings, which keep their order because no name is bound
twice. Counts have to fit in 64 bits (`Counted`); words always do.

## How the lemmas fit together

A type is lawful **at a value**, and not as a whole, since some types have values that are not read
back: statistics with a count that is too large. For a type whose values all come back, the lemma is
stated for every value and has no hypothesis. Lists are lawful when their members are
(`Lawful.mapM`), so terms and argument lists need no simultaneous induction: the hypothesis of
`Term.induction` is about the members, and that is what a list asks for.

The depth of a form is compared with what a reader may enter by three equivalences, one for each
container of a form: an array, a record, and a variant around its data. They are equivalences with
an existential on the right, because a reader matches on the number it is given and has to be shown
that it is a successor.

The converse does not hold and is not claimed. A reader accepts documents that are written
otherwise, so reading and printing again gives a document in the form that is written here.
-/

namespace OffsetLogic

open Json (str)

variable {d : Nat}

/-! ### Shapes -/

/-- Reading each item of a list as what it was written from gives the list back. -/
theorem mapM_map_eq_some {α β : Type} {f : β → Option α} {g : α → β} {l : List α}
    (h : ∀ a ∈ l, f (g a) = some a) : (l.map g).mapM f = some l := by
  induction l with
  | nil => rfl
  | cons a l ih =>
    rw [List.map_cons, List.mapM_cons, h a List.mem_cons_self,
      ih fun b hb ↦ h b (List.mem_cons_of_mem a hb)]
    rfl

namespace Json

variable {j : Json} {js : List Json} {ms : List (String × Json)} {x : String} {n : Nat}

mutual

/-- How many arrays and objects nest in a value. -/
def depth : Json → Nat
  | .array js => depthItems js + 1
  | .object ms => depthMembers ms + 1
  | _ => 0

/-- How many arrays and objects nest in an item, at most. -/
def depthItems : List Json → Nat
  | [] => 0
  | j :: js => max j.depth (depthItems js)

/-- How many arrays and objects nest in a member, at most. -/
def depthMembers : List (Json.Text × Json) → Nat
  | [] => 0
  | (_, j) :: ms => max j.depth (depthMembers ms)

end

/-- An array can be entered when one container is left for it and the rest is enough for each item.
-/
theorem depth_array_le : (array js).depth ≤ d ↔ ∃ e, d = e + 1 ∧ ∀ j ∈ js, j.depth ≤ e := by
  have hitems : ∀ e, depthItems js ≤ e ↔ ∀ j ∈ js, j.depth ≤ e := by
    intro e
    induction js with
    | nil => simp [depthItems]
    | cons j js ih => rw [depthItems, Nat.max_le, ih, List.forall_mem_cons]
  cases d <;> simp [depth, hitems]

theorem depth_record_le : (record ms).depth ≤ d ↔ ∃ e, d = e + 1 ∧ ∀ m ∈ ms, m.2.depth ≤ e := by
  have hmembers : ∀ e, depthMembers (ms.map fun m ↦ (some m.1, m.2)) ≤ e ↔
      ∀ m ∈ ms, m.2.depth ≤ e := by
    intro e
    induction ms with
    | nil => simp [depthMembers]
    | cons m ms ih => rw [List.map_cons, depthMembers, Nat.max_le, ih, List.forall_mem_cons]
  cases d <;> simp [record, depth, hmembers]

/-- A variant takes one container around its data. -/
theorem depth_tagged_le : (tagged x j).depth ≤ d ↔ ∃ e, d = e + 1 ∧ j.depth ≤ e := by
  rw [tagged, depth_record_le]
  simp only [List.forall_mem_singleton]

/-- A variant is exact when its data is. -/
theorem Exact.tagged (h : j.Exact) : (tagged x j).Exact :=
  .record (List.forall_mem_singleton.2 h)

/-- The members of a record are those it was made from, names included. -/
theorem members?_record (ms : List (String × Json)) : (record ms).members? = some ms :=
  mapM_map_eq_some fun _ _ ↦ rfl

/-- A count that fits in 64 bits is read from its number. -/
theorem count?_integer (hn : n < UInt64.size) : (integer n).count? = some n := by
  rw [count?, if_pos ⟨Int.natCast_nonneg n, Int.ofNat_lt.2 hn⟩, Int.toNat_natCast]

/-- A count that may be absent is read from its number as one that is there. -/
theorem optionalCount?_integer (hn : n < UInt64.size) :
    (integer n).optionalCount? = some (some n) := by
  rw [optionalCount?, count?_integer hn]
  · rfl
  · exact nofun

/-- The writer and the reader of a type belong together at a value: it is written exactly, and a
reader that may enter as many containers as nest in what is written reads it again. -/
structure Lawful {α : Type} (toJson : α → Json) (ofJson? : Nat → Json → Option α) (a : α) :
    Prop where
  exact : (toJson a).Exact
  read : ∀ d, (toJson a).depth ≤ d → ofJson? d (toJson a) = some a

section

variable {α : Type} {toJson : α → Json} {ofJson? : Nat → Json → Option α} {l : List α}
  (h : ∀ a ∈ l, Lawful toJson ofJson? a)

include h

/-- An array of forms is exact when the members are lawful. -/
theorem Lawful.exact_array : (array (l.map toJson)).Exact :=
  .array (List.forall_mem_map.2 fun a ha ↦ (h a ha).exact)

/-- A list is read item by item. -/
theorem Lawful.mapM (hd : (array (l.map toJson)).depth ≤ d) :
    ∃ e, d = e + 1 ∧ (l.map toJson).mapM (ofJson? e) = some l := by
  obtain ⟨e, rfl, hitems⟩ := depth_array_le.1 hd
  exact ⟨e, rfl, mapM_map_eq_some fun a ha ↦
    (h a ha).read e (hitems _ (List.mem_map_of_mem ha))⟩

end

end Json

open Json (Lawful)

/-! ### Values and terms -/

theorem Value.lawful (v : Value) : Lawful toJson ofJson? v := by
  cases v with
  | int n =>
    refine ⟨.tagged (.integer _), fun d h ↦ ?_⟩
    obtain ⟨d, rfl, -⟩ := Json.depth_tagged_le.1 h
    exact congrArg (int <$> ·) (Int64.ofInt?_toInt n)
  | symbol s =>
    refine ⟨.tagged (.str s), fun d h ↦ ?_⟩
    obtain ⟨d, rfl, -⟩ := Json.depth_tagged_le.1 h
    rfl

namespace Term

theorem toJsonArgs_eq_map (ts : List Term) : toJsonArgs ts = ts.map toJson := by
  induction ts with
  | nil => rfl
  | cons t ts ih => rw [toJsonArgs, ih, List.map_cons]

/-- Terms are read back. The induction is on the term, and an application asks for its arguments as
a list. -/
theorem lawful (t : Term) : Lawful toJson ofJson? t := by
  induction t with
  | const v =>
    refine ⟨.tagged v.lawful.exact, fun d h ↦ ?_⟩
    obtain ⟨d, rfl, hv⟩ := Json.depth_tagged_le.1 h
    exact congrArg (const <$> ·) (v.lawful.read d hv)
  | var x k =>
    refine ⟨.tagged (.record ?_), fun d h ↦ ?_⟩
    · simp only [List.forall_mem_cons]
      exact ⟨.str x, .integer _, nofun⟩
    · obtain ⟨d, rfl, hrecord⟩ := Json.depth_tagged_le.1 h
      obtain ⟨d, rfl, -⟩ := Json.depth_record_le.1 hrecord
      show (Int64.ofInt? k.toInt).bind (fun k ↦ some (var x k)) = _
      rw [Int64.ofInt?_toInt]
      rfl
  | app g ts ih =>
    refine ⟨.tagged (.record ?_), fun d h ↦ ?_⟩
    · simp only [List.forall_mem_cons, toJsonArgs_eq_map]
      exact ⟨.str g, Lawful.exact_array ih, nofun⟩
    -- the arguments are in an array in a record in a variant
    · obtain ⟨d, rfl, hrecord⟩ := Json.depth_tagged_le.1 h
      obtain ⟨d, rfl, hfields⟩ := Json.depth_record_le.1 hrecord
      have hargs := hfields ("args", _) (List.mem_cons_of_mem _ List.mem_cons_self)
      rw [toJsonArgs_eq_map] at hargs
      obtain ⟨d, rfl, hitems⟩ := Lawful.mapM ih hargs
      show ((toJsonArgs ts).mapM (ofJson? d)).bind (fun ts ↦ some (app g ts)) = _
      rw [toJsonArgs_eq_map, hitems]
      rfl

end Term

/-! ### Clauses and substitutions -/

theorem Clause.lawful (c : Clause) : Lawful toJson ofJson? c := by
  refine ⟨.record ?_, fun d h ↦ ?_⟩
  · simp only [List.forall_mem_cons]
    exact ⟨Lawful.exact_array fun t _ ↦ t.lawful, Lawful.exact_array fun t _ ↦ t.lawful, nofun⟩
  · obtain ⟨d, rfl, hfields⟩ := Json.depth_record_le.1 h
    simp only [List.forall_mem_cons] at hfields
    obtain ⟨d, rfl, hpos⟩ := Lawful.mapM (fun t _ ↦ t.lawful) hfields.1
    obtain ⟨e, he, hneg⟩ := Lawful.mapM (fun t _ ↦ t.lawful) hfields.2.1
    -- both arrays are entered from the same record
    obtain rfl := Nat.succ.inj he
    show ((c.pos.toList.map Term.toJson).mapM (Term.ofJson? d)).bind (fun pos ↦
      ((c.neg.toList.map Term.toJson).mapM (Term.ofJson? d)).bind fun neg ↦
        some (ofLists pos neg)) = _
    rw [hpos, hneg]
    show some (ofLists c.pos.toList c.neg.toList) = _
    rw [ofLists, SortedSet.ofList_toList, SortedSet.ofList_toList]

namespace Substitution

/-- A name that is not bound yet comes last. -/
theorem bindIn_of_notMem {x : String} {t : Term} {bs : List (String × Term)}
    (hx : x ∉ bs.map Prod.fst) : bindIn x t bs = bs ++ [(x, t)] := by
  induction bs with
  | nil => rfl
  | cons b bs ih =>
    rw [List.map_cons, List.mem_cons, not_or] at hx
    rw [bindIn, if_neg (Ne.symm hx.1), ih hx.2, List.cons_append]

/-- Different names are bound in the order in which they are listed. -/
theorem bindings_foldl_bind {bs : List (String × Term)} {s : Substitution}
    (h : ((s.bindings ++ bs).map Prod.fst).Nodup) :
    (bs.foldl (fun s b ↦ s.bind b.1 b.2) s).bindings = s.bindings ++ bs := by
  induction bs generalizing s with
  | nil => exact (List.append_nil _).symm
  | cons b bs ih =>
    have hb : b.1 ∉ s.bindings.map Prod.fst := by
      rw [List.map_append, List.map_cons] at h
      exact fun hb ↦ (List.nodup_append.1 h).2.2 _ hb _ List.mem_cons_self rfl
    have hbind : (s.bind b.1 b.2).bindings = s.bindings ++ [b] := bindIn_of_notMem hb
    rw [List.foldl_cons, ih, hbind, List.append_assoc, List.singleton_append]
    rwa [hbind, List.append_assoc, List.singleton_append]

theorem ofList_bindings (s : Substitution) : ofList s.bindings = s :=
  bindings_inj.1 (bindings_foldl_bind (s := ∅) s.nodup)

theorem lawful (s : Substitution) : Lawful toJson ofJson? s := by
  refine ⟨.record ?_, fun d h ↦ ?_⟩
  · simp only [List.forall_mem_cons]
    exact ⟨.record (List.forall_mem_map.2 fun b _ ↦ b.2.lawful.exact), nofun⟩
  · obtain ⟨d, rfl, hfields⟩ := Json.depth_record_le.1 h
    obtain ⟨d, rfl, hmembers⟩ := Json.depth_record_le.1 (hfields _ List.mem_cons_self)
    have hread : ∀ b ∈ s.bindings, ((b.1, ·) <$> Term.ofJson? d b.2.toJson) = some b := by
      intro b hb
      rw [b.2.lawful.read d (hmembers _ (List.mem_map_of_mem hb))]
      rfl
    show ((Json.record _).members?.bind fun ms ↦
      (ms.mapM fun m : String × Json ↦ (m.1, ·) <$> Term.ofJson? d m.2).bind fun bs ↦
        some (ofList bs)) = _
    rw [Json.members?_record, Option.bind_some, mapM_map_eq_some hread, Option.bind_some,
      ofList_bindings]

end Substitution

/-! ### Derivations and verdicts -/

theorem Step.lawful (s : Step) : Lawful toJson ofJson? s := by
  refine ⟨.record ?_, fun d h ↦ ?_⟩
  · simp only [List.forall_mem_cons]
    exact ⟨s.left.lawful.exact, s.right.lawful.exact, s.resolvent.lawful.exact, nofun⟩
  · obtain ⟨d, rfl, hfields⟩ := Json.depth_record_le.1 h
    simp only [List.forall_mem_cons] at hfields
    obtain ⟨hleft, hright, hresolvent, -⟩ := hfields
    show ((Clause.ofJson? d s.left.toJson).bind fun l ↦ (Clause.ofJson? d s.right.toJson).bind
      fun r ↦ (Clause.ofJson? d s.resolvent.toJson).bind fun c ↦ some (Step.mk l r c)) = _
    rw [s.left.lawful.read d hleft, s.right.lawful.read d hright,
      s.resolvent.lawful.read d hresolvent]
    rfl

theorem Derivation.lawful (p : Derivation) : Lawful toJson ofJson? p := by
  refine ⟨.record ?_, fun d h ↦ ?_⟩
  · simp only [List.forall_mem_cons]
    exact ⟨Lawful.exact_array fun s _ ↦ s.lawful, nofun⟩
  · obtain ⟨d, rfl, hfields⟩ := Json.depth_record_le.1 h
    obtain ⟨d, rfl, hsteps⟩ := Lawful.mapM (fun s _ ↦ s.lawful) (hfields _ List.mem_cons_self)
    show ((p.steps.map Step.toJson).mapM (Step.ofJson? d)).bind
      (fun steps ↦ some (Derivation.mk steps)) = _
    rw [hsteps]
    rfl

/-- The counts are unsigned integers of 64 bits. -/
structure Stats.Counted (s : Stats) : Prop where
  rounds : s.rounds < UInt64.size
  pairsExamined : s.pairsExamined < UInt64.size
  resolventsGenerated : s.resolventsGenerated < UInt64.size
  tautologiesRemoved : s.tautologiesRemoved < UInt64.size
  clausesRetained : s.clausesRetained < UInt64.size

/-- Statistics are read back when their counts fit in 64 bits. -/
theorem Stats.Counted.lawful {s : Stats} (hs : s.Counted) : Lawful toJson ofJson? s := by
  refine ⟨.record ?_, fun d h ↦ ?_⟩
  · simp only [List.forall_mem_cons]
    exact ⟨.integer _, .integer _, .integer _, .integer _, .integer _, .bool _, nofun⟩
  · obtain ⟨d, rfl, -⟩ := Json.depth_record_le.1 h
    show ((Json.integer s.rounds).count?.bind fun n₁ ↦
      (Json.integer s.pairsExamined).count?.bind fun n₂ ↦
      (Json.integer s.resolventsGenerated).count?.bind fun n₃ ↦
      (Json.integer s.tautologiesRemoved).count?.bind fun n₄ ↦
      (Json.integer s.clausesRetained).count?.bind fun n₅ ↦
        some (Stats.mk n₁ n₂ n₃ n₄ n₅ s.emptyClauseFound)) = _
    rw [Json.count?_integer hs.rounds, Json.count?_integer hs.pairsExamined,
      Json.count?_integer hs.resolventsGenerated, Json.count?_integer hs.tautologiesRemoved,
      Json.count?_integer hs.clausesRetained]
    rfl

namespace Verdict

/-- The counts are unsigned integers of 64 bits. -/
def Counted : Verdict → Prop
  | refuted _ s => s.Counted
  | saturated n s => n < UInt64.size ∧ s.Counted

theorem Counted.lawful {v : Verdict} (hv : v.Counted) : Lawful toJson ofJson? v := by
  cases v with
  | refuted p s =>
    refine ⟨.tagged (.record ?_), fun d h ↦ ?_⟩
    · simp only [List.forall_mem_cons]
      exact ⟨p.lawful.exact, (Stats.Counted.lawful hv).exact, nofun⟩
    · obtain ⟨d, rfl, hrecord⟩ := Json.depth_tagged_le.1 h
      obtain ⟨d, rfl, hfields⟩ := Json.depth_record_le.1 hrecord
      simp only [List.forall_mem_cons] at hfields
      show ((Derivation.ofJson? d p.toJson).bind fun p ↦ (Stats.ofJson? d s.toJson).bind fun s ↦
        some (refuted p s)) = _
      rw [p.lawful.read d hfields.1, (Stats.Counted.lawful hv).read d hfields.2.1]
      rfl
  | saturated n s =>
    obtain ⟨hn, hs⟩ := hv
    refine ⟨.tagged (.record ?_), fun d h ↦ ?_⟩
    · simp only [List.forall_mem_cons]
      exact ⟨.integer _, hs.lawful.exact, nofun⟩
    · obtain ⟨d, rfl, hrecord⟩ := Json.depth_tagged_le.1 h
      obtain ⟨d, rfl, hfields⟩ := Json.depth_record_le.1 hrecord
      simp only [List.forall_mem_cons] at hfields
      show ((Json.integer n).count?.bind fun n ↦ (Stats.ofJson? d s.toJson).bind fun s ↦
        some (saturated n s)) = _
      rw [Json.count?_integer hn, hs.lawful.read d hfields.2.1]
      rfl

end Verdict

/-! ### Answers and configurations -/

theorem Answer.lawful (a : Answer) : Lawful toJson ofJson? a :=
  ⟨.str a.name, fun d _ ↦ by cases a <;> rfl⟩

namespace Config

/-- The limits are unsigned integers of 64 bits. -/
structure Counted (c : Config) : Prop where
  maxRounds : ∀ n ∈ c.maxRounds, n < UInt64.size
  maxClauses : ∀ n ∈ c.maxClauses, n < UInt64.size

variable {c : Config}

/-- A limit that is not set is left out, and what is left out is not set. -/
theorem fields?_toJson (c : Config) :
    c.toJson.fields? ["max_rounds", "max_clauses", "record_derivation"] =
      some [c.maxRounds.map fun n ↦ .integer n, c.maxClauses.map fun n ↦ .integer n,
        some (.bool c.recordDerivation)] := by
  obtain ⟨rounds, clauses, record⟩ := c
  cases rounds <;> cases clauses <;> rfl

/-- A limit is read as it is written. -/
theorem elim_optionalCount? {limit : Option Nat} (h : ∀ n ∈ limit, n < UInt64.size) :
    (limit.map fun n : Nat ↦ Json.integer n).elim (some none) Json.optionalCount? = some limit := by
  cases limit with
  | none => rfl
  | some n => rw [Option.map_some, Option.elim_some, Json.optionalCount?_integer (h n rfl)]

/-- The members of the form of a configuration are numbers, but for the one of its option. -/
theorem mem_toJson {m : String × Json} (hm : m ∈ (c.maxRounds.toList.map fun n : Nat ↦
      ("max_rounds", Json.integer n)) ++ (c.maxClauses.toList.map fun n : Nat ↦
        ("max_clauses", Json.integer n)) ++ [("record_derivation", Json.bool c.recordDerivation)]) :
    (∃ n : Nat, m.2 = .integer n) ∨ m.2 = .bool c.recordDerivation := by
  simp only [List.mem_append, List.mem_map, List.mem_singleton] at hm
  obtain (⟨n, -, rfl⟩ | ⟨n, -, rfl⟩) | rfl := hm
  · exact .inl ⟨n, rfl⟩
  · exact .inl ⟨n, rfl⟩
  · exact .inr rfl

theorem Counted.lawful (hc : c.Counted) : Lawful toJson ofJson? c := by
  refine ⟨.record fun m hm ↦ ?_, fun d h ↦ ?_⟩
  · obtain ⟨n, h⟩ | h := mem_toJson hm
    · exact h ▸ .integer n
    · exact h ▸ .bool _
  · obtain ⟨d, rfl, -⟩ := Json.depth_record_le.1 h
    rw [ofJson?, fields?_toJson]
    show (Option.elim _ (some none) Json.optionalCount?).bind (fun rounds ↦
      (Option.elim _ (some none) Json.optionalCount?).bind fun clauses ↦
        some (Config.mk rounds clauses c.recordDerivation)) = _
    rw [elim_optionalCount? hc.maxRounds, elim_optionalCount? hc.maxClauses]
    rfl

end Config

/-! ### Documents -/

namespace Json

variable {α : Type} {toJson : α → Json} {ofJson? : Nat → Json → Option α} {a : α}

/-- The value that a whole document is read as. -/
def read? (ofJson? : Nat → Json → Option α) (document : String) : Option α :=
  (parse? document).bind (ofJson? depthLimit)

/-- To read a document and print it again is to print what is read from it. -/
theorem reprint?_eq_map_read? (document : String) :
    reprint? ofJson? toJson document = (read? ofJson? document).map fun a ↦ (toJson a).render := by
  unfold reprint? read?
  cases parse? document with
  | none => rfl
  | some j =>
    show (ofJson? depthLimit j).bind _ = (ofJson? depthLimit j).map _
    cases ofJson? depthLimit j <;> rfl

/-- A lawful value is read back from what is printed for it, unless too many containers nest in it.
-/
theorem Lawful.read?_render (h : Lawful toJson ofJson? a) (hd : (toJson a).depth ≤ depthLimit) :
    read? ofJson? (toJson a).render = some a := by
  rw [read?, parse?_render h.exact, Option.bind_some, h.read _ hd]

/-- To read what was printed and print it again changes nothing. -/
theorem Lawful.reprint?_render (h : Lawful toJson ofJson? a) (hd : (toJson a).depth ≤ depthLimit) :
    reprint? ofJson? toJson (toJson a).render = some (toJson a).render := by
  rw [reprint?_eq_map_read?, h.read?_render hd, Option.map_some]

/-- **Every value is read back from what is printed for it**, if no more arrays and objects nest in
it than a reader may enter, and if counts fit in 64 bits. The names in it may be any texts, its
integers any words, and the bindings of a substitution keep their order. -/
theorem read?_render_toJson :
    (∀ v : Value, read? Value.ofJson? v.toJson.render = some v) ∧
    (∀ t : Term, t.toJson.depth ≤ depthLimit → read? Term.ofJson? t.toJson.render = some t) ∧
    (∀ c : Clause, c.toJson.depth ≤ depthLimit → read? Clause.ofJson? c.toJson.render = some c) ∧
    (∀ s : Substitution, s.toJson.depth ≤ depthLimit →
      read? Substitution.ofJson? s.toJson.render = some s) ∧
    (∀ s : Stats, s.Counted → read? Stats.ofJson? s.toJson.render = some s) ∧
    (∀ v : Verdict, v.Counted → v.toJson.depth ≤ depthLimit →
      read? Verdict.ofJson? v.toJson.render = some v) ∧
    (∀ p : Derivation, p.toJson.depth ≤ depthLimit →
      read? Derivation.ofJson? p.toJson.render = some p) ∧
    (∀ a : Answer, read? Answer.ofJson? a.toJson.render = some a) ∧
    ∀ c : Config, c.Counted → read? Config.ofJson? c.toJson.render = some c := by
  refine ⟨fun v ↦ v.lawful.read?_render ?_, fun t h ↦ t.lawful.read?_render h,
    fun c h ↦ c.lawful.read?_render h, fun s h ↦ s.lawful.read?_render h,
    fun s hs ↦ hs.lawful.read?_render ?_, fun v hv h ↦ hv.lawful.read?_render h,
    fun p h ↦ p.lawful.read?_render h, fun a ↦ a.lawful.read?_render ?_,
    fun c hc ↦ hc.lawful.read?_render ?_⟩
  · cases v <;> exact Nat.le_of_ble_eq_true rfl
  · exact Nat.le_of_ble_eq_true rfl
  · exact Nat.zero_le _
  · refine depth_record_le.2 ⟨126, rfl, fun m hm ↦ ?_⟩
    obtain ⟨n, h⟩ | h := Config.mem_toJson hm
    · exact h ▸ Nat.zero_le _
    · exact h ▸ Nat.zero_le _

/-- Values at the limits: 127 arrays and objects nest in the clause and in the substitution. -/
theorem read?_render_toJson_limits :
    let word := "\"\\/\x01\n 𝄞"
    let term := Nat.repeat (fun t ↦ Term.app word [t]) 41 (.var word Int64.minValue)
    let clause := Clause.ofLists [term] [.const (.int Int64.maxValue), .app "" []]
    let subst := Substitution.ofList [("y", term), (word, .const (.symbol "")), ("x", .var "y" 1)]
    let stats : Stats := ⟨UInt64.size - 1, 0, 1, 2, 3, true⟩
    let config : Config := ⟨some (UInt64.size - 1), none, false⟩
    let derivation : Derivation := ⟨[⟨∅, .ofLists [.app word [.var word 1]] [], ∅⟩]⟩
    let verdict := Verdict.refuted derivation stats
    read? Value.ofJson? (Value.symbol word).toJson.render = some (.symbol word) ∧
    (term.toJson.depth = 125 ∧ read? Term.ofJson? term.toJson.render = some term) ∧
    (clause.toJson.depth = 127 ∧ read? Clause.ofJson? clause.toJson.render = some clause) ∧
    (subst.toJson.depth = 127 ∧ read? Substitution.ofJson? subst.toJson.render = some subst) ∧
    (stats.Counted ∧ read? Stats.ofJson? stats.toJson.render = some stats) ∧
    (verdict.Counted ∧ verdict.toJson.depth ≤ depthLimit ∧
      read? Verdict.ofJson? verdict.toJson.render = some verdict) ∧
    (derivation.toJson.depth ≤ depthLimit ∧
      read? Derivation.ofJson? derivation.toJson.render = some derivation) ∧
    read? Answer.ofJson? Answer.undetermined.toJson.render = some .undetermined ∧
    config.Counted ∧ read? Config.ofJson? config.toJson.render = some config := by
  intro word term clause subst stats config derivation verdict
  obtain ⟨hvalue, hterm, hclause, hsubst, hstats, hverdict, hderivation, hanswer, hconfig⟩ :=
    read?_render_toJson
  have hs : stats.Counted := ⟨by decide, by decide, by decide, by decide, by decide⟩
  have hc : config.Counted := ⟨fun n hn ↦ by cases hn; decide, nofun⟩
  exact ⟨hvalue _, ⟨by decide +kernel, hterm _ (by decide +kernel)⟩,
    ⟨by decide +kernel, hclause _ (by decide +kernel)⟩,
    ⟨by decide +kernel, hsubst _ (by decide +kernel)⟩, ⟨hs, hstats _ hs⟩,
    ⟨hs, by decide +kernel, hverdict _ hs (by decide +kernel)⟩,
    ⟨by decide +kernel, hderivation _ (by decide +kernel)⟩, hanswer _, hc, hconfig _ hc⟩

end Json

end OffsetLogic
