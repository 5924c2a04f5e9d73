import InfixCalculator.Proofs.Conversion.Faults
import InfixCalculator.Proofs.Conversion.Groups
import InfixCalculator.Proofs.Conversion.Segments
import InfixCalculator.Proofs.Drawing
import InfixCalculator.Proofs.Evaluation
import InfixCalculator.Proofs.Grammar.Acceptance
import InfixCalculator.Proofs.Journal
import InfixCalculator.Proofs.Layout.Levels
import InfixCalculator.Proofs.Layout.Links
import InfixCalculator.Proofs.Layout.Order
import InfixCalculator.Proofs.Lexer.Lexemes
import InfixCalculator.Proofs.Lexer.Spacing
import InfixCalculator.Proofs.Postfix.Height
import InfixCalculator.Proofs.Screen.Coherence
import InfixCalculator.Proofs.Screen.Keypad
import InfixCalculator.Proofs.Session.Bounds
import InfixCalculator.Proofs.Session.Freshness
import InfixCalculator.Proofs.Value.Reading
import InfixCalculator.Screen
