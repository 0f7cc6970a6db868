import AgentLab.Arg
import AgentLab.Calc.Client
import AgentLab.Calc.Console
import AgentLab.Calc.Lexer
import AgentLab.Calc.Op
import AgentLab.Calc.Postfix
import AgentLab.Calc.Session
import AgentLab.Calc.Token
import AgentLab.Decimal.Aligned
import AgentLab.Decimal.Basic
import AgentLab.Decimal.Fixed
import AgentLab.Decimal.Notation
import AgentLab.Decimal.Read
import AgentLab.Decimal.Shortest
import AgentLab.Main
import AgentLab.Perceptron.Basic
import AgentLab.Perceptron.Lab
import AgentLab.Perceptron.View
import AgentLab.Text
import AgentLab.Proofs.Evaluation
import AgentLab.Proofs.Tasks
import AgentLab.Proofs.Runs
import AgentLab.Proofs.Tokens
import AgentLab.Proofs.Shunting
import AgentLab.Proofs.Pipeline
import AgentLab.Proofs.Activation
import AgentLab.Proofs.Grouping
import AgentLab.Proofs.Convergence
import AgentLab.Proofs.PostfixWords
import AgentLab.Proofs.Waiting
import AgentLab.Proofs.Training
import AgentLab.Proofs.Scanning
import AgentLab.Proofs.Reporting
import AgentLab.Proofs.Requests
import AgentLab.Proofs.Redrawing
import AgentLab.Proofs.Dialogue
import AgentLab.Proofs.OperatorStack
import AgentLab.Proofs.ScanProgress
