import Mathlib.Logic.Function.Basic
import Mingo.Lib.Registry
import Mingo.Log.Basic

/-!
# The options of env.cpp

`Env::init` reads the arguments of the program one after the other.  One that begins with `-` is
the name of an option, and one that does not is the value of the option in front of it.  The
option is added when its value is there, or when the next one begins.

* `init_spec` -- the arguments that are accepted, and what is added of those that are not;
* `run_printHelp` -- the help after any calls.

Every function holds the lock while it uses the map or the list, and the model runs one call after
the other.  `addHelp` is two critical sections, that of `removeHelp` and one that appends: two
threads that add a name at once can leave it twice, and this is left out.  An argument is the list
of its bytes, without the NUL.
-/

namespace Mingo

/-- `Env`, with what `find` makes of the map `m_args`. -/
structure Env where
  args : List UInt8 → Option (List UInt8)
  helps : List (List UInt8 × List UInt8)
  program : List UInt8

namespace Env

/-- The constructor. -/
def new : Env := ⟨fun _ => none, [], []⟩

def add (s : Env) (key val : List UInt8) : Env :=
  { s with args := Function.update s.args key (some val) }

def has (s : Env) (key : List UInt8) : Bool := (s.args key).isSome

def del (s : Env) (key : List UInt8) : Env :=
  { s with args := Function.update s.args key none }

def get (s : Env) (key default_ : List UInt8) : List UInt8 := (s.args key).getD default_

/-- The loop that erases every entry of the key. -/
def removeHelp (s : Env) (key : List UInt8) : Env :=
  { s with helps := s.helps.filter fun it => it.1 ≠ key }

def addHelp (s : Env) (key desc : List UInt8) : Env :=
  let s := s.removeHelp key
  { s with helps := s.helps ++ [(key, desc)] }

/-- `if(now_key) add(now_key, "")`. -/
def addEmpty (s : Env) (nowKey : Option (List UInt8)) : Env :=
  nowKey.elim s fun key => s.add key []

/-- The loop of `init` over the arguments that are left. -/
def initLoop : Option (List UInt8) → List (List UInt8) → Env → Bool × Env
  | nowKey, [], s => (true, s.addEmpty nowKey)
  | nowKey, arg :: args, s =>
      if arg.head? = some 45 then
        if 1 < arg.length then initLoop (some (arg.drop 1)) args (s.addEmpty nowKey)
        else (false, s)
      else
        match nowKey with
        | some key => initLoop none args (s.add key arg)
        | none => (false, s)

/-- `init`; without `argv[0]` a null pointer is followed. -/
def init (s : Env) : List (List UInt8) → Option (Bool × Env)
  | [] => none
  | program :: args => some (initLoop none args { s with program := program })

/-! ### What is accepted -/

/-- An option as it is written: its name, and its value if it has one. -/
structure Setting where
  key : List UInt8
  value : Option (List UInt8)
  named : key ≠ []
  plain : ∀ v ∈ value, v.head? ≠ some 45

/-- The arguments of the option. -/
def Setting.words (o : Setting) : List (List UInt8) := (45 :: o.key) :: o.value.toList

/-- The options are added in their order. -/
def addAll (s : Env) (os : List Setting) : Env :=
  os.foldl (fun s o => s.add o.key (o.value.getD [])) s

/-- The argument of a name that waits for its value. -/
def front (nowKey : Option (List UInt8)) : List (List UInt8) := nowKey.toList.map (45 :: ·)

/-- **Where the loop gives up**: behind these options, the last of which has its value, and
perhaps a name that is not empty, at a lone `-` or at a value that no name stands in front of. -/
def GivesUp (args : List (List UInt8)) (os : List Setting) : Prop :=
  ∃ pending bad rest, args = os.flatMap Setting.words ++ (front pending ++ bad :: rest) ∧
    pending ≠ some [] ∧ (bad = [45] ∨ pending = none ∧ bad.head? ≠ some 45) ∧
    (pending = none → ∀ o ∈ os.getLast?, o.value.isSome)

variable {s t : Env} {args : List (List UInt8)} {os : List Setting} {o : Setting}

/-- Options are read to their end. -/
theorem initLoop_words (os : List Setting) (nowKey : Option (List UInt8)) (s : Env) :
    initLoop nowKey (os.flatMap Setting.words) s = (true, (s.addEmpty nowKey).addAll os) := by
  induction os generalizing nowKey s with
  | nil => rfl
  | cons o os ih =>
      have hlen : 0 < o.key.length := List.length_pos_iff.mpr o.named
      rw [List.flatMap_cons, Setting.words]
      cases hvalue : o.value with
      | none => simp [initLoop, hlen, ih, addAll, addEmpty, hvalue]
      | some v =>
          have hplain := o.plain v hvalue
          simp [initLoop, hlen, hplain, ih, addAll, addEmpty, hvalue]

/-- An option in front of where the loop gives up. -/
theorem GivesUp.cons (h : GivesUp args os)
    (hvalue : o.value.isSome ∨ ∃ key, key ≠ [] ∧ args.head? = some (45 :: key)) :
    GivesUp (o.words ++ args) (o :: os) := by
  obtain ⟨pending, bad, rest, hargs, hnamed, hbad, hlast⟩ := h
  refine ⟨pending, bad, rest, by simp [hargs], hnamed, hbad, fun hnone => ?_⟩
  cases os with
  | cons o' os => simpa [hnone] using hlast
  | nil =>
      have hhas : o.value.isSome := by
        apply hvalue.resolve_right
        intro ⟨key, hkey, hhead⟩
        have hword : bad = 45 :: key := by simpa [hargs, hnone, front] using hhead
        rcases hbad with hdash | ⟨-, hplain⟩
        · rw [hdash] at hword
          exact hkey (List.cons.inj hword).2.symm
        · rw [hword] at hplain
          exact hplain rfl
      simpa using hhas

/-- **The loop**, whatever it is given: it reads options to the end, or it gives up. -/
theorem initLoop_cases (nowKey : Option (List UInt8)) (args : List (List UInt8)) (s : Env)
    (hkey : nowKey ≠ some []) : ∃ os,
      (initLoop nowKey args s = (true, s.addAll os) ∧
        front nowKey ++ args = os.flatMap Setting.words) ∨
      (initLoop nowKey args s = (false, s.addAll os) ∧ GivesUp (front nowKey ++ args) os) := by
  fun_induction initLoop nowKey args s with
  | case1 nowKey s =>
      cases nowKey with
      | none => exact ⟨[], .inl ⟨rfl, rfl⟩⟩
      | some key =>
          have hnamed : key ≠ [] := fun h => hkey (by rw [h])
          exact ⟨[⟨key, none, hnamed, by simp⟩], .inl ⟨rfl, rfl⟩⟩
  | case2 nowKey arg args s hdash hlong ih =>
      -- another option begins
      obtain ⟨key, rfl⟩ := List.head?_eq_some_iff.mp hdash
      have hname : key ≠ [] := List.length_pos_iff.mp (by simpa using hlong)
      obtain ⟨os, hos⟩ := ih (by simpa using hname)
      cases nowKey with
      | none => exact ⟨os, hos⟩
      | some key₀ =>
          have hnamed : key₀ ≠ [] := fun h => hkey (by rw [h])
          let o : Setting := ⟨key₀, none, hnamed, by simp⟩
          refine ⟨o :: os, hos.imp ?_ ?_⟩
          · intro ⟨hloop, hargs⟩
            refine ⟨hloop, ?_⟩
            rw [List.flatMap_cons, ← hargs]
            rfl
          · intro ⟨hloop, hgives⟩
            have hfront : GivesUp (o.words ++ (front (some key) ++ args)) (o :: os) :=
              hgives.cons (.inr ⟨key, hname, rfl⟩)
            exact ⟨hloop, hfront⟩
  | case3 nowKey arg args s hdash hshort =>
      obtain ⟨key, rfl⟩ := List.head?_eq_some_iff.mp hdash
      have hname : key = [] := List.eq_nil_of_length_eq_zero (by simpa using hshort)
      exact ⟨[], .inr ⟨rfl, nowKey, 45 :: key, args, rfl, hkey, .inl (by rw [hname]), by simp⟩⟩
  | case4 arg args s hplain key ih =>
      -- the value of the option
      have hnamed : key ≠ [] := fun h => hkey (by rw [h])
      obtain ⟨os, hos⟩ := ih (by simp)
      let o : Setting := ⟨key, some arg, hnamed, by simpa using hplain⟩
      refine ⟨o :: os, hos.imp ?_ ?_⟩
      · intro ⟨hloop, hargs⟩
        refine ⟨hloop, ?_⟩
        rw [List.flatMap_cons, ← hargs]
        rfl
      · intro ⟨hloop, hgives⟩
        have hfront : GivesUp (o.words ++ args) (o :: os) := hgives.cons (.inl rfl)
        exact ⟨hloop, hfront⟩
  | case5 arg args s hplain =>
      exact ⟨[], .inr ⟨rfl, none, arg, args, rfl, by simp, .inr ⟨rfl, hplain⟩, by simp⟩⟩

/-- The last value of a name is the one that `get` finds. -/
theorem addAll_args (s : Env) (os : List Setting) (key : List UInt8) :
    (s.addAll os).args key =
      match (os.filter fun o => o.key = key).getLast? with
      | some o => some (o.value.getD [])
      | none => s.args key := by
  induction os generalizing s with
  | nil => rfl
  | cons o os ih =>
      have hrest := ih (s.add o.key (o.value.getD []))
      rw [addAll, List.foldl_cons, ← addAll, hrest, List.filter_cons]
      by_cases hk : o.key = key
      · rw [if_pos (by simpa using hk), List.getLast?_cons]
        cases hlast : (os.filter fun o => o.key = key).getLast? with
        | some o' => simp
        | none => simp [add, hk]
      · rw [if_neg (by simpa using hk)]
        cases hlast : (os.filter fun o => o.key = key).getLast? with
        | some o' => rfl
        | none => simp [add, Function.update_of_ne (Ne.symm hk)]

/-- The names and the help stay as they are. -/
theorem addAll_helps (s : Env) (os : List Setting) : (s.addAll os).helps = s.helps := by
  induction os generalizing s with
  | nil => rfl
  | cons o os ih => exact ih _

/-- **The arguments of the program.**  They are accepted when they are those of options, each a
name behind a `-` and perhaps a value without one.  Then every name has the value that it is given
last, and the empty one if it is given none; and of other arguments the options count that stand
complete in front of the first that does not fit. -/
theorem init_spec (program : List UInt8) (args : List (List UInt8)) (s : Env) :
    ∃ (b : Bool) (t : Env) (os : List Setting), s.init (program :: args) = some (b, t) ∧
      (b = true ↔ ∃ os : List Setting, args = os.flatMap Setting.words) ∧
      (b = true → args = os.flatMap Setting.words) ∧ (b = false → GivesUp args os) ∧
      t.helps = s.helps ∧ ∀ key, t.args key =
        match (os.filter fun o => o.key = key).getLast? with
        | some o => some (o.value.getD [])
        | none => s.args key := by
  obtain ⟨os, hos⟩ := initLoop_cases none args { s with program := program } (by simp)
  rcases hos with ⟨hloop, hargs⟩ | ⟨hloop, hgives⟩
  · refine ⟨true, _, os, congrArg some hloop, iff_of_true rfl ⟨os, hargs⟩, fun _ => hargs, by simp,
      addAll_helps _ os, addAll_args _ os⟩
  · refine ⟨false, _, os, congrArg some hloop, iff_of_false Bool.false_ne_true ?_, by simp,
      fun _ => hgives, addAll_helps _ os, addAll_args _ os⟩
    intro ⟨os', hargs⟩
    have haccepts := initLoop_words os' none { s with program := program }
    rw [← hargs, hloop] at haccepts
    cases haccepts

/-- `prog -f x -d` -/
example : (new.init [ascii "prog", ascii "-f", ascii "x", ascii "-d"]).map (fun r =>
    (r.1, r.2.get (ascii "f") [], r.2.has (ascii "d"))) = some (true, ascii "x", true) := by
  decide

/-! ### The help -/

/-- A call. -/
inductive Call
  | init (argv : List (List UInt8))
  | add (key val : List UInt8)
  | del (key : List UInt8)
  | addHelp (key desc : List UInt8)
  | removeHelp (key : List UInt8)

/-- A step; `init` of no arguments at all is not one. -/
def step (s : Env) : Call → Env
  | .init argv => ((s.init argv).map Prod.snd).getD s
  | .add key val => s.add key val
  | .del key => s.del key
  | .addHelp key desc => s.addHelp key desc
  | .removeHelp key => s.removeHelp key

/-- The line of a name and its description; the `-` stands in a field of five. -/
def helpLine (it : List UInt8 × List UInt8) : List UInt8 :=
  ascii "    -" ++ it.1 ++ ascii " : " ++ it.2 ++ ascii "\n"

/-- What `printHelp` writes. -/
def printHelp (s : Env) : List UInt8 :=
  ascii "Usage: " ++ s.program ++ ascii " [options]\n" ++ s.helps.flatMap helpLine

/-- What a call does to the help. -/
def Call.helpChange : Call → Option (Registry.Change (List UInt8) (List UInt8))
  | .addHelp key desc => some (.add key desc)
  | .removeHelp key => some (.remove key)
  | _ => none

theorem init_helps (s : Env) (argv : List (List UInt8)) :
    (s.step (.init argv)).helps = s.helps := by
  cases argv with
  | nil => rfl
  | cons program args =>
      obtain ⟨os, hos⟩ := initLoop_cases none args { s with program := program } (by simp)
      have hloop : (initLoop none args { s with program := program }).2 =
          addAll { s with program := program } os := by
        rcases hos with ⟨hloop, -⟩ | ⟨hloop, -⟩
        · rw [hloop]
        · rw [hloop]
      have hstep : s.step (.init (program :: args)) =
          (initLoop none args { s with program := program }).2 := rfl
      rw [hstep, hloop, addAll_helps]

theorem step_helps (s : Env) (c : Call) :
    (s.step c).helps = c.helpChange.elim s.helps (Registry.apply s.helps) := by
  cases c with
  | addHelp key desc => rfl
  | removeHelp key => rfl
  | add key val => rfl
  | del key => rfl
  | init argv => exact init_helps s argv

/-- **The help after any calls** has one line for each name that was added and not removed since,
with its last description, in the order in which these were added. -/
theorem run_printHelp (calls : List Call) :
    (calls.foldl step new).printHelp =
      ascii "Usage: " ++ (calls.foldl step new).program ++ ascii " [options]\n" ++
        (Registry.standing (calls.filterMap Call.helpChange)).flatMap helpLine ∧
    ((Registry.standing (calls.filterMap Call.helpChange)).map Prod.fst).Nodup := by
  have hall (s : Env) : (calls.foldl step s).helps =
      (calls.filterMap Call.helpChange).foldl Registry.apply s.helps := by
    induction calls generalizing s with
    | nil => rfl
    | cons c calls ih =>
        rw [List.foldl_cons, ih, step_helps]
        cases hc : c.helpChange with
        | none => simp [hc]
        | some g => simp [hc]
  have hhelps : (calls.foldl step new).helps =
      Registry.standing (calls.filterMap Call.helpChange) := by
    rw [hall new, Registry.foldl_apply]
    rfl
  refine ⟨?_, Registry.nodup_standing _⟩
  rw [printHelp, hhelps]

end Env

end Mingo
