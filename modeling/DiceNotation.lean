import DiceNotation.Tree
import DiceNotation.Main
import DiceNotation.Proofs.Grammar.Fold
import DiceNotation.Proofs.Grammar.Phrase
import DiceNotation.Proofs.Grammar.Outcome
import DiceNotation.Proofs.Grammar.Completeness
import DiceNotation.Proofs.Grammar.Unambiguity
import DiceNotation.Proofs.Grammar.Derivation
import DiceNotation.Proofs.Grammar.Outline
import DiceNotation.Proofs.Token.Cutting
import DiceNotation.Proofs.Token.Legible
import DiceNotation.Proofs.Description.Rendering
import DiceNotation.Proofs.Description.Faithful
import DiceNotation.Proofs.Value.Display
import DiceNotation.Proofs.Variables.Failure
import DiceNotation.Proofs.Evaluation.Forcing
import DiceNotation.Proofs.Evaluation.Pools
import DiceNotation.Proofs.Rolling.KeptRange
import DiceNotation.Proofs.Evaluation.SoundPools
import DiceNotation.Proofs.Rolling.Faults
import DiceNotation.Proofs.Evaluation.Numerals
import DiceNotation.Proofs.Evaluation.Faults
import DiceNotation.Proofs.Rolling.NumberDice
import DiceNotation.Proofs.Rolling.OrderStatistics
import DiceNotation.Proofs.Token.Partition
import DiceNotation.Proofs.Rolling.SeparateDice
import DiceNotation.Proofs.Rolling.Thrift
import DiceNotation.Proofs.Value.Steps
import DiceNotation.Proofs.Evaluation.Pending
import DiceNotation.Proofs.Evaluation.Draws
import DiceNotation.Proofs.Evaluation.Play
import DiceNotation.Proofs.Evaluation.Deadline
import DiceNotation.Proofs.Grammar.FirstError
import DiceNotation.Proofs.Evaluation.Indexing
import DiceNotation.Proofs.Token.Enclosing
import DiceNotation.Proofs.Chat.Replies
import DiceNotation.Proofs.Decimal.NotANumber
import DiceNotation.Proofs.Value.Preorder
import DiceNotation.Proofs.Evaluation.Selecting
import DiceNotation.Proofs.Rolling.Explosions
import DiceNotation.Proofs.Value.Arrangement
import DiceNotation.Proofs.Value.Broadcasting
import DiceNotation.Proofs.Value.IntegerLaws
import DiceNotation.Proofs.Value.Trichotomy
import DiceNotation.Proofs.Value.Payment
import DiceNotation.Proofs.Token.Digits
import DiceNotation.Proofs.Token.Spaced
import DiceNotation.Proofs.Value.Distinct
import DiceNotation.Proofs.Value.WholeNumbers
import DiceNotation.Proofs.Chat.CodeSpans
import DiceNotation.Proofs.Evaluation.GreatestFaces
import DiceNotation.Proofs.Grammar.Turns
import DiceNotation.Proofs.Grammar.Levels
import DiceNotation.Proofs.Grammar.Effort
import DiceNotation.Proofs.Evaluation.Stages
