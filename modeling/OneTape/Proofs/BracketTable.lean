import OneTape.Proofs.UnboundedMachine

/-!
# Bracket tables

An interpreter that never changes its program can look up where a bracket jumps
to.  The table comes from one pass over the program with a stack of the opening
brackets that wait for their partners.  A closing bracket takes the bracket on
top of the stack as its partner.

The pass keeps track of the depth: from a waiting bracket on it has stayed
positive, and is now the bracket's place on the stack.  So the brackets that the
pass puts together are partners, and a bracket that is still waiting at the end
has none.
-/

namespace OneTape

/-- What is known of the brackets up to some address: the opening ones that wait,
innermost first, and an entry for each of the two brackets of a pair. -/
structure BracketScan where
  waiting : List Int := []
  table : List (Int × Int) := []

namespace BracketScan

def add (scan : BracketScan) (address : Int) (byte : UInt8) : BracketScan :=
  match Command.ofByte? byte with
  | some .openLoop => { scan with waiting := address :: scan.waiting }
  | some .closeLoop =>
      match scan.waiting with
      | [] => scan
      | opening :: waiting =>
          { waiting, table := (opening, address) :: (address, opening) :: scan.table }
  | _ => scan

def addFrom (scan : BracketScan) (address : Int) : List UInt8 → BracketScan
  | [] => scan
  | byte :: rest => (scan.add address byte).addFrom (address + 1) rest

end BracketScan

/-- The partner of each bracket of a program. -/
def bracketTable (program : List UInt8) : List (Int × Int) :=
  (BracketScan.addFrom {} 0 program).table

/-- Every bracket of a program has a partner. -/
def Partnered (program : List UInt8) : Prop :=
  ∀ (direction : Tape.Direction) (address : Int),
    Command.ofByte? (programCells program address) = some direction.bracket →
    ∃ partner, IsPartner (programCells program) direction address partner

namespace BracketScan

/-- A bracket has waited for its partner up to an address, with a number of
others on top of it. -/
structure Waits (cells : Int → UInt8) (finish opening : Int) (above : Nat) : Prop where
  before : opening < finish
  level : depth cells opening (finish - 1) = above + 1
  nested : ∀ address, opening ≤ address → address < finish → 0 < depth cells opening address

/-- A pass has come to an address. -/
structure Reaches (cells : Int → UInt8) (finish : Int) (scan : BracketScan) : Prop where
  waits : ∀ above opening, scan.waiting[above]? = some opening →
    Waits cells finish opening above
  paired : ∀ first second, (first, second) ∈ scan.table →
    Matched cells first second ∨ Matched cells second first
  reversed : ∀ first second, (first, second) ∈ scan.table → (second, first) ∈ scan.table
  known : ∀ opening, 0 ≤ opening → opening < finish →
    Command.ofByte? (cells opening) = some .openLoop →
    opening ∈ scan.waiting ∨ ∃ closing, (opening, closing) ∈ scan.table

section Pass

variable {cells : Int → UInt8} {finish opening : Int} {above : Nat} {scan : BracketScan}

theorem Waits.next (waits : Waits cells finish opening above) {higher : Nat}
    (level : (above : Int) + nesting (cells finish) = higher) :
    Waits cells (finish + 1) opening higher := by
  have before := waits.before
  have appended := depth_right cells (Int.le_of_lt before)
  rw [waits.level] at appended
  refine ⟨by omega, ?_, ?_⟩
  · rw [Int.add_sub_cancel, appended]
    omega
  · intro address behind inside
    by_cases last : address = finish
    · rw [last, appended]
      omega
    · exact waits.nested address behind (by omega)

theorem Waits.start (opens : Command.ofByte? (cells finish) = some .openLoop) :
    Waits cells (finish + 1) finish 0 := by
  have one : nesting (cells finish) = 1 := nesting_eq_one_iff.mpr opens
  refine ⟨by omega, ?_, ?_⟩
  · rw [Int.add_sub_cancel, depth_self, one]
    rfl
  · intro address behind inside
    rw [show address = finish by omega, depth_self, one]
    exact Int.one_pos

theorem Waits.matched (waits : Waits cells finish opening 0)
    (closes : Command.ofByte? (cells finish) = some .closeLoop) :
    Matched cells opening finish := by
  have minusOne : nesting (cells finish) = -1 := nesting_eq_neg_one_iff.mpr closes
  refine ⟨waits.before, ?_, waits.nested⟩
  rw [depth_right cells (Int.le_of_lt waits.before), waits.level, minusOne]
  rfl

theorem Reaches.known_next (reaches : Reaches cells finish scan) {later : BracketScan}
    (keeps : ∀ opening, opening ∈ scan.waiting →
      opening ∈ later.waiting ∨ ∃ closing, (opening, closing) ∈ later.table)
    (grows : ∀ entry ∈ scan.table, entry ∈ later.table)
    (last : Command.ofByte? (cells finish) = some .openLoop → finish ∈ later.waiting)
    (opening : Int) (nonneg : 0 ≤ opening) (before : opening < finish + 1)
    (opens : Command.ofByte? (cells opening) = some .openLoop) :
    opening ∈ later.waiting ∨ ∃ closing, (opening, closing) ∈ later.table := by
  by_cases new : opening = finish
  · subst new
    exact .inl (last opens)
  · rcases reaches.known opening nonneg (by omega) opens with waiting | ⟨closing, entry⟩
    · exact keeps opening waiting
    · exact .inr ⟨closing, grows _ entry⟩

theorem Reaches.push (reaches : Reaches cells finish scan)
    (opens : Command.ofByte? (cells finish) = some .openLoop) :
    Reaches cells (finish + 1) { scan with waiting := finish :: scan.waiting } := by
  have one : nesting (cells finish) = 1 := nesting_eq_one_iff.mpr opens
  refine ⟨?_, reaches.paired, reaches.reversed, ?_⟩
  · intro above opening found
    cases above with
    | zero =>
        obtain rfl := Option.some.inj found
        exact .start opens
    | succ above => exact (reaches.waits above opening found).next (by omega)
  · apply reaches.known_next
    · exact fun opening waiting => .inl (List.mem_cons_of_mem _ waiting)
    · exact fun _ entry => entry
    · exact fun _ => List.mem_cons_self ..

theorem Reaches.pop {waiting : List Int} (reaches : Reaches cells finish scan)
    (top : scan.waiting = opening :: waiting)
    (closes : Command.ofByte? (cells finish) = some .closeLoop) :
    Reaches cells (finish + 1)
      { waiting, table := (opening, finish) :: (finish, opening) :: scan.table } := by
  have minusOne : nesting (cells finish) = -1 := nesting_eq_neg_one_iff.mpr closes
  have matched : Matched cells opening finish :=
    (reaches.waits 0 opening (by rw [top]; rfl)).matched closes
  refine ⟨?_, ?_, ?_, ?_⟩
  · -- The other brackets move up by one place, and the depth from them on goes
    -- down by one.
    intro above other found
    have waits := reaches.waits (above + 1) other (by rw [top]; exact found)
    exact waits.next (by omega)
  · intro first second entry
    simp only [List.mem_cons, Prod.mk.injEq] at entry
    rcases entry with ⟨rfl, rfl⟩ | ⟨rfl, rfl⟩ | entry
    · exact .inl matched
    · exact .inr matched
    · exact reaches.paired first second entry
  · intro first second entry
    simp only [List.mem_cons, Prod.mk.injEq] at entry ⊢
    rcases entry with ⟨rfl, rfl⟩ | ⟨rfl, rfl⟩ | entry
    · exact .inr (.inl ⟨rfl, rfl⟩)
    · exact .inl ⟨rfl, rfl⟩
    · exact .inr (.inr (reaches.reversed first second entry))
  · apply reaches.known_next
    · intro other member
      rw [top] at member
      rcases List.mem_cons.mp member with rfl | member
      · exact .inr ⟨finish, List.mem_cons_self ..⟩
      · exact .inl member
    · exact fun _ entry => List.mem_cons_of_mem _ (List.mem_cons_of_mem _ entry)
    · intro opens
      simp [closes] at opens

/-- Bytes that neither open nor close a loop, and closing brackets that find no
bracket waiting. -/
theorem Reaches.pass (reaches : Reaches cells finish scan)
    (notOpen : Command.ofByte? (cells finish) ≠ some .openLoop)
    (flat : Command.ofByte? (cells finish) = some .closeLoop → scan.waiting = []) :
    Reaches cells (finish + 1) scan := by
  refine ⟨?_, reaches.paired, reaches.reversed, ?_⟩
  · intro above opening found
    have notClose : Command.ofByte? (cells finish) ≠ some .closeLoop := by
      intro closes
      simp [flat closes] at found
    have zero : nesting (cells finish) = 0 := nesting_eq_zero notOpen notClose
    exact (reaches.waits above opening found).next (by omega)
  · apply reaches.known_next
    · exact fun _ waiting => .inl waiting
    · exact fun _ entry => entry
    · exact fun opens => absurd opens notOpen

theorem Reaches.add (reaches : Reaches cells finish scan) :
    Reaches cells (finish + 1) (scan.add finish (cells finish)) := by
  unfold BracketScan.add
  split
  · rename_i opens
    exact reaches.push opens
  · rename_i closes
    split
    · rename_i none
      exact reaches.pass (by simp [closes]) (fun _ => none)
    · rename_i opening waiting top
      exact reaches.pop top closes
  · rename_i notOpen notClose
    exact reaches.pass notOpen (fun closes => absurd closes notClose)

end Pass

theorem reaches_program (program : List UInt8) :
    Reaches (programCells program) program.length (addFrom {} 0 program) := by
  refine suffix_induction (motive := fun address rest => ∀ scan : BracketScan,
    Reaches (programCells program) address scan →
    Reaches (programCells program) program.length (scan.addFrom address rest))
    ?_ ?_ 0 (Nat.zero_le _) {} ?_
  · exact fun _ reaches => reaches
  · intro address byte rest _ here continues scan reaches
    exact continues _ (here ▸ reaches.add)
  · constructor
    · simp
    · simp
    · simp
    · intro opening nonneg before
      omega

end BracketScan

section Table

variable {program : List UInt8}

theorem not_waiting_of_isPartner {opening partner : Int} {above : Nat}
    (isPartner : IsPartner (programCells program) .rightward opening partner)
    (waits : BracketScan.Waits (programCells program) program.length opening above) : False := by
  obtain ⟨behind, zero, -⟩ := isPartner
  by_cases inside : partner < program.length
  · have positive := waits.nested partner (by omega) inside
    omega
  · have flat : depth (programCells program) program.length partner = 0 := by
      apply depthOf_eq_zero
      intro index bound
      rw [programCells_of_length_le (by omega)]
      rfl
    have before := waits.before
    have level := waits.level
    rw [depth_split _ (Int.le_of_lt before) (by omega), flat] at zero
    omega

theorem Partnered.entry (partnered : Partnered program) {opening : Int}
    (opens : Command.ofByte? (programCells program opening) = some .openLoop) :
    ∃ closing, (opening, closing) ∈ bracketTable program := by
  have reaches := BracketScan.reaches_program program
  obtain ⟨nonneg, inside⟩ := inside_of_command opens (by decide)
  rcases reaches.known opening nonneg inside opens with waiting | entry
  · obtain ⟨above, found⟩ := List.mem_iff_getElem?.mp waiting
    obtain ⟨partner, isPartner⟩ := partnered .rightward opening opens
    exact (not_waiting_of_isPartner isPartner (reaches.waits above opening found)).elim
  · exact entry

theorem isPartner_of_entry {direction : Tape.Direction} {address partner : Int}
    (bracket : Command.ofByte? (programCells program address) = some direction.bracket)
    (entry : (address, partner) ∈ bracketTable program) :
    IsPartner (programCells program) direction address partner := by
  have paired := (BracketScan.reaches_program program).paired address partner entry
  cases direction with
  | rightward =>
      rcases paired with matched | matched
      · exact matched.isPartner_rightward
      · have contradictory := matched.closes.symm.trans bracket
        simp [Tape.Direction.bracket] at contradictory
  | leftward =>
      rcases paired with matched | matched
      · have contradictory := matched.opens.symm.trans bracket
        simp [Tape.Direction.bracket] at contradictory
      · exact matched.isPartner_leftward

theorem Partnered.exists_entry (partnered : Partnered program) {direction : Tape.Direction}
    {address : Int}
    (bracket : Command.ofByte? (programCells program address) = some direction.bracket) :
    ∃ partner, (address, partner) ∈ bracketTable program := by
  cases direction with
  | rightward => exact partnered.entry bracket
  | leftward =>
      -- The partner is an opening bracket, and its entry leads back here.
      obtain ⟨opening, isPartner⟩ := partnered .leftward address bracket
      have matched := isPartner.matched_leftward bracket
      obtain ⟨closing, entry⟩ := partnered.entry matched.opens
      have isOther : IsPartner (programCells program) .rightward opening closing :=
        isPartner_of_entry matched.opens entry
      rw [isOther.unique matched.isPartner_rightward] at entry
      exact ⟨opening, (BracketScan.reaches_program program).reversed _ _ entry⟩

/-- The table leads every bracket to its partner. -/
theorem Partnered.lookup (partnered : Partnered program) {direction : Tape.Direction}
    {address : Int}
    (bracket : Command.ofByte? (programCells program address) = some direction.bracket) :
    ∃ partner, (bracketTable program).lookup address = some partner ∧
      IsPartner (programCells program) direction address partner := by
  cases found : (bracketTable program).lookup address with
  | none =>
      obtain ⟨partner, entry⟩ := partnered.exists_entry bracket
      have absent := List.lookup_eq_none_iff.mp found _ entry
      simp at absent
  | some partner =>
      obtain ⟨before, behind, whole, -⟩ := List.lookup_eq_some_iff.mp found
      have entry : (address, partner) ∈ bracketTable program := by simp [whole]
      exact ⟨partner, rfl, isPartner_of_entry bracket entry⟩

end Table
end OneTape
